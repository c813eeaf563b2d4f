import Outline.Proofs.Extraction.Cpp.Rule
import Outline.Proofs.Extraction.Cpp.TrailingMatch
import Outline.Proofs.Extraction.Scan
import Outline.Proofs.Extraction.Kind
import Outline.Proofs.Extraction.Registry

/-!
# Trailing return types

The function is read in its struct: its trailer reaches from the arrow to the body, and the words
in between, as they are cut, are the return type that is recorded.  That is the type itself with
exactly one specifier behind it, or with none where it ends with neither of them.
-/

namespace Outline

namespace Cpp

variable {subject : Subject} {scan : Scan} {found : Match}

/-! ## The trailer -/

/-- One round, read where the blanks end. -/
theorem trailerFrom_succ {masked before rest : List Char} {start : Nat} (range : Option (Nat × Nat))
    (fuel : Nat) (hm : masked = before ++ rest)
    (hskip : Text.skipBlanks masked start = Text.width before) :
    trailerFrom masked (fuel + 1) range start =
      match roundAt masked range (Text.width before) rest with
      | .ends trailer => .ok trailer
      | .goesOn range start => trailerFrom masked fuel range start := by
  have hdrop : Text.dropWidth? (Text.width before) masked = some rest := by
    rw [hm, Text.dropWidth?_width_append]
  rw [trailerFrom, hskip, SourceText.tailFrom, hdrop]
  rfl

/-- A trailing return type reaches from the arrow to the body. -/
theorem trailer?_arrow (front rest : List Char) {type : List Char}
    (ht : ∀ c ∈ type, c ∉ ['\x7b', ';', '=']) :
    trailer? (front ++ ([' ', '-', '>'] ++ (type ++ '\x7b' :: rest))) (Text.width front) =
      .ok (some ⟨.body (Text.width front + 3 + Text.width type),
        some (Text.width front + 3, Text.width front + 3 + Text.width type)⟩) := by
  generalize hmasked : front ++ ([' ', '-', '>'] ++ (type ++ '\x7b' :: rest)) = masked
  have harrow : masked = (front ++ [' ']) ++ '-' :: '>' :: (type ++ '\x7b' :: rest) := by
    rw [← hmasked, List.append_assoc]
    rfl
  have hbody : masked = (front ++ [' ', '-', '>'] ++ type) ++ '\x7b' :: rest := by
    rw [← hmasked, List.append_assoc, List.append_assoc]
  have hspace : Text.width (front ++ [' ']) = Text.width front + 1 := Text.width_append _ _
  have hwidth : Text.width (front ++ [' ', '-', '>'] ++ type) =
      Text.width front + 3 + Text.width type := by
    rw [Text.width_append, Text.width_append]
    rfl
  have hskipArrow : Text.skipBlanks masked (Text.width front) = Text.width (front ++ [' ']) := by
    rw [← hmasked, hspace]
    exact Text.skipBlanks_up_to rfl front [' '] ('>' :: (type ++ '\x7b' :: rest))
  have hskipBody : Text.skipBlanks masked (Text.width front + 3 + Text.width type) =
      Text.width (front ++ [' ', '-', '>'] ++ type) := by
    rw [hbody, ← hwidth]
    exact Text.skipBlanks_up_to rfl (front ++ [' ', '-', '>'] ++ type) [] rest
  have hround : roundAt masked none (Text.width (front ++ [' ']))
      ('-' :: '>' :: (type ++ '\x7b' :: rest)) =
        .goesOn (some (Text.width front + 3, Text.width front + 3 + Text.width type))
          (Text.width front + 3 + Text.width type) := by
    rw [hspace, roundAt, Text.find?_append ht (by decide)]
  obtain ⟨fuel, hfuel⟩ : ∃ fuel, masked.length = fuel + 1 :=
    ⟨_, by rw [hbody, List.length_append, List.length_cons, ← Nat.add_assoc]⟩
  rw [trailer?, hfuel, trailerFrom_succ none (fuel + 1) harrow hskipArrow, hround]
  dsimp only
  rw [trailerFrom_succ _ fuel hbody hskipBody, roundAt, hwidth]

/-! ## Namespaces -/

/-- What looks like a namespace may be recorded as a block, but no class is recorded. -/
theorem run_namespaces (hs : scan.classes = []) :
    Yields (Rule.run ⟨.masked, namespacePattern, findNamespace⟩ subject scan)
      (·.classes = []) := by
  have hfinds : Rule.Finds ⟨.masked, namespacePattern, findNamespace⟩ [.block] :=
    fun _ scan _ => @findNamespace_among _ scan _
  refine Rule.run_of_finds hfinds (fun scan hs finding hkind => ?_) (fun scan found hf => ?_) hs
  · cases finding with
    | block => exact hs
    | package | imported | classBody | label | abstractClass | method | property | function
    | error | warning => exact absurd hkind (by simp [Finding.kind])
  · have hmeet : Yields (findNamespace subject scan found)
        (Finding.AllMeet (.ofText subject.source.text)) :=
      findNamespace_yields (Pattern.foundIn_of_mem_findAll hf)
    exact hmeet.mono fun _ _ => trivial

/-! ## Functions of a class -/

/-- Where `auto` is declared, the return type is the one behind the arrow. -/
theorem returnTypeOf_auto {trailer : Trailer} {range : Nat × Nat} {typeless : Bool}
    {modifiers : List (List Char)} (h : trailer.returnRange = some range) :
    returnTypeOf subject (some "auto".toList) trailer typeless modifiers =
      (trailingReturn subject range).map (some ∘ some) := by
  unfold returnTypeOf
  rw [h]
  exact if_pos rfl

/-- A function with a body that stands in a class is a method of the class. -/
theorem functionFindings_method {text : List Char} (h : subject.Of text) {head : Head}
    {index opening : Nat} {draft : ClassDraft}
    (howner : scan.classAt? subject found.start = some (index, draft))
    (hending : head.trailer.ending = .body opening)
    (hbrace : Text.charAt? subject.masked opening = some '\x7b')
    (hparameters : Yields (subject.source.strippedPart head.parametersStart head.parametersStop)
      fun _ => True) :
    Yields (functionFindings subject scan found head) fun findings =>
      ∃ warnings entry, findings = warnings ++ [.method index entry] ∧
        Finding.Among [.warning] warnings ∧ entry.name = String.ofList head.name ∧
        entry.returnType = head.returnType.map String.ofList := by
  rw [functionFindings, howner, hending]
  refine hparameters.bind fun parametersText _ => ?_
  refine (h.body_yields hbrace).some.bind fun result hresult => ?_
  obtain ⟨body, rfl, -⟩ := hresult
  exact .ok ⟨_, _, rfl, Finding.among_checkTerminated (by simp) _ _ _ _, rfl, rfl⟩

namespace TrailingStruct

variable (s : TrailingStruct) {draft : ClassDraft}

/-! ## The function -/

/-- The struct up to its function. -/
def front : List Char := s.head ++ ['\x7b', ' ']

/-- The words behind the arrow, up to the body. -/
def typed : List Char := Text.spaced s.returned ++ [' ']

theorem text_eq_front : s.text = s.front ++ (opened ++ s.behind) := by
  rw [text_eq_function, front]
  simp only [List.append_assoc, List.cons_append, List.nil_append]

theorem behind_eq : s.behind = ')' :: ([' ', '-', '>'] ++ (s.typed ++ '\x7b' :: bodyText)) := by
  rw [behind, trailing, typed]
  rfl

theorem width_front : Text.width s.front = Text.width s.head + 2 := Text.width_append _ _

/-- What stands behind the parameters. -/
def trailer : Trailer :=
  ⟨.body (Text.width s.front + 8 + 3 + Text.width s.typed),
    some (Text.width s.front + 8 + 3, Text.width s.front + 8 + 3 + Text.width s.typed)⟩

section
variable {s} (h : s.Shown subject)
include h

theorem starts_function :
    Statement.startsAt subject.masked (Text.width s.front) true = .ok true := by
  rw [h.masked, text_eq_front, Statement.startsAt_append, front]
  exact congrArg _ (Statement.startsAfter_of_mark (by decide) s.head (by decide) true)

/-- In front of the name only `auto` is declared. -/
theorem spelling_auto : subject.spelling (Text.width s.front) (Text.width s.front + 5) =
    .ok "auto".toList := by
  have htext : s.text = s.front ++ (['a', 'u', 't', 'o', ' '] ++ (['f', '('] ++ s.behind)) := by
    rw [text_eq_front, opened]
    rfl
  have hpart := SourceText.part_of_append _ htext
  rw [← h.stripped] at hpart
  rw [Subject.spelling, SourceText.strippedPart]
  exact (congrArg (Except.map Text.normalizeSpace) hpart).trans (by decide)

theorem find_parameters : Delimiter.find subject.masked (Text.width s.front + 6) =
    ⟨Text.width s.front + 7, true⟩ := by
  have htext : s.text = (s.front ++ ['a', 'u', 't', 'o', ' ', 'f']) ++
      '(' :: ([] ++ ')' :: ([' ', '-', '>'] ++ (s.typed ++ '\x7b' :: bodyText))) := by
    rw [text_eq_front, opened, behind_eq, List.append_assoc]
    rfl
  have hwidth : Text.width s.front + 6 =
      Text.width (s.front ++ ['a', 'u', 't', 'o', ' ', 'f']) := by
    rw [Text.width_append]
    rfl
  rw [h.masked, htext, hwidth, Delimiter.find_of_balanced
    (rfl : Delimiter.closing? '(' = some ')') (rfl : Delimiter.balanced '(' ')' [] = true) rfl,
    ← hwidth]
  rfl

theorem parameters_eq : subject.source.strippedPart (Text.width s.front + 7)
    (Text.width s.front + 7) = .ok [] := by
  have htext : s.text = (s.front ++ opened) ++ ([] ++ s.behind) := by
    rw [text_eq_front, List.append_assoc]
    rfl
  have hpart := SourceText.part_of_append _ htext
  rw [Text.width_append, ← h.stripped] at hpart
  exact hpart

theorem trailer?_function : trailer? subject.masked (Text.width s.front + 8) =
    .ok (some s.trailer) := by
  have htext : s.text = (s.front ++ (opened ++ [')'])) ++
      ([' ', '-', '>'] ++ (s.typed ++ '\x7b' :: bodyText)) := by
    rw [text_eq_front, behind_eq]
    simp only [List.append_assoc, List.singleton_append]
  have htyped : ∀ c ∈ s.typed, c ∉ ['\x7b', ';', '='] := by
    have hmarks : ∀ c ∈ ['\x7b', ';', '='], Text.isWordChar c = false ∧ c ∉ [' ', '-', '>'] := by
      decide +kernel
    intro c hc hmark
    obtain ⟨hword, hother⟩ := hmarks c hmark
    rcases s.mem_trailing (List.mem_append_right [' ', '-', '>'] hc) with htrue | hmem
    · rw [htrue] at hword
      cases hword
    · exact hother hmem
  have harrow := trailer?_arrow (s.front ++ (opened ++ [')'])) bodyText htyped
  rw [← htext, Text.width_append] at harrow
  rw [h.masked]
  exact harrow

/-- The words behind the arrow are recorded without what is cut off. -/
theorem trailingReturn_function : trailingReturn subject
    (Text.width s.front + 8 + 3, Text.width s.front + 8 + 3 + Text.width s.typed) =
      .ok (reported s.type s.specifiers) := by
  have htext : s.text = (s.front ++ (opened ++ [')', ' ', '-', '>'])) ++
      (s.typed ++ '\x7b' :: bodyText) := by
    rw [text_eq_front, behind_eq]
    simp only [List.append_assoc, List.cons_append, List.nil_append]
  have hpart := SourceText.part_of_append _ htext
  rw [Text.width_append, ← h.stripped] at hpart
  have hwords : Text.words s.typed = s.returned :=
    Text.words_spaced fun word hword => ⟨(s.isWord_of_mem_returned word hword).ne_nil,
      (s.isWord_of_mem_returned word hword).isBlank⟩
  have hspelling : subject.spelling (Text.width s.front + 8 + 3)
      (Text.width s.front + 8 + 3 + Text.width s.typed) =
        .ok (s.type ++ Text.spaced s.specifiers) := by
    have hnormal : Text.normalizeSpace s.typed = s.type ++ Text.spaced s.specifiers := by
      rw [Text.normalizeSpace, hwords, returned, Text.join_cons_spaced]
    rw [Subject.spelling, SourceText.strippedPart, ← hnormal]
    exact congrArg (Except.map Text.normalizeSpace) hpart
  rw [trailingReturn, hspelling, Except.map, trim_dropTrails_spaced s.type_isWord s.known]

theorem charAt?_body : Text.charAt? subject.masked
    (Text.width s.front + 8 + 3 + Text.width s.typed) = some '\x7b' := by
  refine Text.charAt?_eq_some_iff.mpr
    ⟨s.front ++ (opened ++ [')', ' ', '-', '>']) ++ s.typed, bodyText, ?_, ?_⟩
  · rw [h.masked, text_eq_front, behind_eq]
    simp only [List.append_assoc, List.cons_append, List.nil_append]
  · rw [Text.width_append, Text.width_append]
    rfl

/-- The function is in the struct. -/
theorem classAt?_function (hblock : scan.blockAt? (Text.width s.head) = some (.classBody 0))
    (hclass : scan.classes = [draft]) :
    scan.classAt? subject (Text.width s.front) = some (0, draft) := by
  have hbraces := h.braces
  rw [text_eq_front, front, List.append_assoc] at hbraces
  refine Scan.classAt?_of_balanced hbraces (balanced_of_isInner s.isInner_head) (by decide)
    hblock ?_
  rw [hclass]
  rfl

end

/-- What is known of the match of the function. -/
structure FunctionMatch (found : Match) : Prop where
  start : found.start = Text.width s.front
  stop : found.stop = Text.width s.front + 7
  declaration : ∃ declaration, found.part? .declaration = some declaration
  name : found.part? .name = some ⟨Text.width s.front + 5, ['f']⟩
  type : found.part? .type = some ⟨Text.width s.front, "auto ".toList⟩

theorem functionMatch : s.FunctionMatch (functionFound.down (Text.width s.head + 2)) := by
  rw [← width_front]
  refine ⟨?_, ?_, ⟨_, Match.part?_down _ _ _⟩, ?_, ?_⟩
  · rw [Match.start_down]
    exact Nat.zero_add _
  · rw [Match.stop_down, Nat.add_comm]
    rfl
  · rw [Match.part?_down, Nat.add_comm]
    rfl
  · rw [Match.part?_down]
    show some (Capture.mk (0 + Text.width s.front) _) = _
    rw [Nat.zero_add]

/-- The function as it is recorded. -/
structure MethodShown (method : FunctionEntry) : Prop where
  name : method.name = "f"
  returnType : method.returnType = some (String.ofList (reported s.type s.specifiers))

section
variable {s} (h : s.Shown subject)
include h

/-- The return type that is recorded is the one behind the arrow. -/
theorem findHead_function {name : Capture} (hname : name.text = ['f']) (declaration : Capture)
    (parametersStart parametersStop : Nat) :
    Yields (findHead subject scan found declaration name (some "auto".toList) parametersStart
      parametersStop s.trailer) fun head? => ∃ head, head? = some head ∧ head.name = ['f'] ∧
        head.returnType = some (reported s.type s.specifiers) ∧
        head.parametersStart = parametersStart ∧ head.parametersStop = parametersStop ∧
        head.trailer = s.trailer := by
  have hsplit : splitQualified ['f'] = (none, ['f']) := by decide +kernel
  have hreturn : ∀ typeless modifiers, returnTypeOf subject (some "auto".toList) s.trailer typeless
      modifiers = .ok (some (some (reported s.type s.specifiers))) := by
    intro typeless modifiers
    rw [returnTypeOf_auto rfl, trailingReturn_function h]
    rfl
  rw [findHead, hname, hsplit]
  dsimp only
  rw [hreturn]
  exact .ok ⟨_, rfl, rfl, rfl, rfl, rfl, rfl⟩

theorem findFunction_method (hf : s.FunctionMatch found)
    (hblock : scan.blockAt? (Text.width s.head) = some (.classBody 0))
    (hclass : scan.classes = [draft]) :
    Yields (findFunction subject scan found) fun findings =>
      ∃ warnings method, findings = warnings ++ [.method 0 method] ∧
        Finding.Among [.warning] warnings ∧ s.MethodShown method := by
  obtain ⟨declaration, hdeclaration⟩ := hf.declaration
  have howner := classAt?_function h hblock hclass
  rw [← hf.start] at howner
  have hsplit : splitQualified ['f'] = (none, ['f']) := by decide +kernel
  have hreturn : declaredReturn subject found ⟨Text.width s.front + 5, ['f']⟩ =
      .ok (some "auto".toList) := by
    rw [declaredReturn, hf.type]
    dsimp only
    rw [spelling_auto h]
    rfl
  rw [findFunction, hdeclaration, hf.name]
  dsimp only
  rw [hf.start, hf.stop, hsplit]
  refine Yields.bind_of_eq (starts_function h) ?_
  rw [if_neg (by decide)]
  refine Yields.bind_of_eq hreturn ?_
  rw [if_neg (by decide)]
  have hparen : Text.width s.front + 7 - 1 = Text.width s.front + 6 := rfl
  rw [hparen, find_parameters h]
  dsimp only
  rw [if_pos rfl]
  refine Yields.bind_of_eq (trailer?_function h) ?_
  dsimp only
  refine (findHead_function h rfl declaration _ _).bind ?_
  rintro _ ⟨head, rfl, hname, htype, hstart, hstop, htrailer⟩
  have hhere : isFunctionHere subject scan found s.trailer = true := by
    rw [isFunctionHere, howner]
    rfl
  have hparameters : Yields (subject.source.strippedPart head.parametersStart head.parametersStop)
      fun _ => True := by
    rw [hstart, hstop]
    exact ⟨[], parameters_eq h, trivial⟩
  dsimp only
  rw [if_pos hhere]
  refine (functionFindings_method h.of howner (congrArg Trailer.ending htrailer)
    (charAt?_body h) hparameters).mono ?_
  rintro _ ⟨warnings, method, rfl, hwarnings, hnamed, hreturned⟩
  rw [hname] at hnamed
  rw [htype] at hreturned
  exact ⟨warnings, method, rfl, hwarnings, hnamed, hreturned⟩

end

/-! ## The struct -/

/-- The struct as it is recorded, whatever is known of its members. -/
structure Drafted (draft : ClassDraft) : Prop where
  name : draft.entry.name = String.ofList s.name
  kind : draft.entry.kind = .struct
  opening : draft.opening = Text.width s.head

section
variable {s} (h : s.Shown subject)
include h

theorem findClass_struct (hf : s.StructMatch found) :
    Yields (findClass subject scan found) fun findings => ∃ draft warnings,
      findings = .classBody draft :: warnings ∧ Finding.Among [.warning] warnings ∧
        s.Drafted draft ∧ draft.entry.methods = [] := by
  obtain ⟨declaration, hdeclaration⟩ := hf.declaration
  have hstart : classStart subject.masked found.start = .ok 0 := by
    have hhead : SourceText.headTo subject.masked 0 = .ok [] := by
      rw [SourceText.headTo, ← List.nil_append subject.masked, ← Text.width_nil,
        Text.takeWidth?_width_append]
    rw [hf.start, classStart, hhead]
    rfl
  have hbrace : Text.charAt? subject.masked (Text.width s.head) = some '\x7b' :=
    Text.charAt?_eq_some_iff.mpr ⟨s.head, s.signature ++ '\x7b' :: bodyText, h.masked, rfl⟩
  have hbases : subject.source.maskedPart (Text.width s.head) (Text.width s.head) = .ok [] :=
    SourceText.part_of_append [] h.masked
  have hstarts : Statement.startsAt subject.masked 0 true = .ok true :=
    Statement.startsAt_zero _ _
  rw [findClass, hdeclaration, hf.name, hf.tail]
  dsimp only
  refine Yields.bind_of_eq hstart (Yields.bind_of_eq hstarts ?_)
  rw [if_pos rfl, classBody?, if_pos rfl]
  dsimp only
  rw [classFindings]
  refine Yields.bind_of_eq hbases ?_
  refine (h.of.body_yields hbrace).bind fun body _ => .ok ?_
  refine ⟨_, _, rfl, Finding.among_checkTerminated (by simp) _ _ _ _, ⟨rfl, ?_, rfl⟩, rfl⟩
  dsimp only
  rw [hf.kind]
  rfl

/-- Nothing else that looks like a class is recorded. -/
theorem findClass_other (hf : classPattern.FoundIn s.text found) (hpos : 0 < found.start) :
    Yields (findClass subject scan found) (· = []) := by
  obtain ⟨before, rest, htext, hstart, hnot, htypedef⟩ := s.not_startsAfter_of_class hf hpos
  have hstarts : ∃ start, classStart subject.masked found.start = .ok start ∧
      Statement.startsAt subject.masked start true = .ok false := by
    have hhead : SourceText.headTo s.text (Text.width before) = .ok before := by
      rw [SourceText.headTo, htext, Text.takeWidth?_width_append]
    rw [h.masked, hstart, classStart, hhead]
    refine ⟨_, rfl, ?_⟩
    dsimp only
    split
    · next front hdrop =>
      obtain ⟨blanks, hblanks⟩ := Text.trimEnd_append before
      have hbefore : before = front ++ "typedef".toList ++ blanks :=
        hblanks.trans (congrArg (· ++ blanks) (Text.eq_append_of_dropTrail? hdrop))
      rw [htext, hbefore, List.append_assoc, List.append_assoc, Statement.startsAt_append,
        htypedef front blanks hbefore]
    · rw [htext, Statement.startsAt_append, hnot]
  obtain ⟨start, hok, hfalse⟩ := hstarts
  rw [findClass]
  split
  · exact Yields.bind_of_eq hok (Yields.bind_of_eq hfalse (.ok rfl))
  · exact .ok rfl

end

/-! ## The scan -/

/-- The struct is held, with methods of which something is known. -/
structure Holds (known : List FunctionEntry → Prop) (scan : Scan) : Prop where
  classes : ∃ draft, scan.classes = [draft] ∧ s.Drafted draft ∧ known draft.entry.methods
  block : scan.blockAt? (Text.width s.head) = some (.classBody 0)

variable {s} {known : List FunctionEntry → Prop}

/-- The struct stays held where warnings or properties are recorded. -/
theorem Holds.record (h : s.Holds known scan) {finding : Finding}
    (hf : finding.kind ∈ [.warning, .property]) : s.Holds known (scan.record finding) := by
  obtain ⟨⟨draft, hclasses, hdraft, hknown⟩, hblock⟩ := h
  cases finding with
  | warning => exact ⟨⟨draft, hclasses, hdraft, hknown⟩, hblock⟩
  | property index entry =>
    refine ⟨?_, hblock⟩
    rw [Scan.record, hclasses]
    cases index with
    | zero => exact ⟨_, rfl, ⟨hdraft.name, hdraft.kind, hdraft.opening⟩, hknown⟩
    | succ index => exact ⟨draft, by simp, hdraft, hknown⟩
  | package | imported | block | classBody | label | abstractClass | method | function | error =>
    exact absurd hf (by simp [Finding.kind])

theorem Holds.recordAll (h : s.Holds known scan) {findings : List Finding}
    (hf : Finding.Among [.warning] findings) : s.Holds known (scan.recordAll findings) :=
  Scan.recordAll_of_among (fun _ hs _ hkind => hs.record (List.mem_of_mem_dropLast hkind)) hf h

/-- The function is the one method of the struct. -/
def OneMethod (s : TrailingStruct) (methods : List FunctionEntry) : Prop :=
  ∃ method, methods = [method] ∧ s.MethodShown method

theorem Holds.method (h : s.Holds (· = []) scan) {method : FunctionEntry}
    (hmethod : s.MethodShown method) : s.Holds s.OneMethod (scan.record (.method 0 method)) := by
  obtain ⟨⟨draft, hclasses, hdraft, hnone⟩, hblock⟩ := h
  refine ⟨?_, hblock⟩
  rw [Scan.record, hclasses]
  refine ⟨_, rfl, ⟨hdraft.name, hdraft.kind, hdraft.opening⟩, method, ?_, hmethod⟩
  exact congrArg (· ++ [method]) hnone

section
variable (h : s.Shown subject)
include h

theorem run_classes (hs : scan.classes = []) :
    Yields (Rule.run ⟨.masked, classPattern, findClass⟩ subject scan) (s.Holds (· = [])) := by
  obtain ⟨first, others, hall, hfirst, hothers⟩ := s.exists_findAll_struct
  have hfound : ∀ other ∈ others, classPattern.FoundIn s.text other := fun other ho =>
    Pattern.foundIn_of_mem_findAll (hall ▸ List.mem_cons_of_mem first ho)
  refine Rule.run_of_findAll_cons ((congrArg _ h.masked).trans hall)
    ((findClass_struct h hfirst).mono ?_)
    fun other ho _ => findClass_other h (hfound other ho) (hothers other ho)
  rintro _ ⟨draft, warnings, rfl, hwarnings, hdraft, hmethods⟩
  have hheld : s.Holds (· = []) (scan.record (.classBody draft)) := by
    constructor
    · exact ⟨draft, by rw [Scan.record, hs]; rfl, hdraft, hmethods⟩
    · rw [Scan.record, hs, hdraft.opening]
      exact List.lookup_cons_self
  exact hheld.recordAll hwarnings

theorem run_functions (hs : s.Holds (· = []) scan) :
    Yields (Rule.run ⟨.masked, functionPattern, findFunction⟩ subject scan)
      (s.Holds s.OneMethod) := by
  obtain ⟨draft, hclasses, -, -⟩ := hs.classes
  refine Rule.run_of_findAll_cons ((congrArg _ h.masked).trans s.findAll_function)
    ((findFunction_method h s.functionMatch hs.block hclasses).mono ?_) nofun
  rintro _ ⟨warnings, method, rfl, hwarnings, hmethod⟩
  rw [Scan.recordAll_append]
  exact (hs.recordAll hwarnings).method hmethod

theorem run_fields (hs : s.Holds s.OneMethod scan) :
    Yields (Rule.run ⟨.masked, fieldPattern, findField⟩ subject scan) (s.Holds s.OneMethod) := by
  have hfinds : Rule.Finds ⟨.masked, fieldPattern, findField⟩ [.property] :=
    fun _ scan _ => @findField_among _ scan _
  refine Rule.run_of_finds hfinds
    (fun scan hs finding hkind => hs.record (List.mem_cons_of_mem _ hkind))
    (fun scan found hf => ?_) hs
  exact (findField_yields h.of (Pattern.foundIn_of_mem_findAll hf)).mono fun _ _ => trivial

end

theorem scan_struct (s : TrailingStruct) :
    Yields (language.scan (language.subject s.text)) (s.Holds s.OneMethod) := by
  have h := s.shown_subject
  generalize language.subject s.text = subject at h
  have hlacks : ∀ c ∈ ['#', '"', ':'], c ∉ s.text := by
    have hmarks : ∀ c ∈ ['#', '"', ':'], isInner c = false ∧ c ∉ marks := by decide +kernel
    exact fun c hc => s.notMem_text (hmarks c hc).1 (hmarks c hc).2
  have hinclude : includePattern.findAll subject.source.text = [] :=
    Pattern.findAll_of_needs (show includePattern.needs '#' = true by decide)
      (h.text ▸ hlacks _ (by decide))
  have hlinkage : linkagePattern.findAll subject.masked = [] :=
    Pattern.findAll_of_needs (show linkagePattern.needs '"' = true by decide)
      (h.masked ▸ hlacks _ (by decide))
  have haccess : accessPattern.findAll subject.masked = [] :=
    Pattern.findAll_of_needs (show accessPattern.needs ':' = true by decide)
      (h.masked ▸ hlacks _ (by decide))
  rw [scan_eq]
  refine Yields.bind_of_eq (Rule.run_of_findAll_nil hinclude _) ?_
  refine (run_namespaces rfl).bind fun scan hs => ?_
  refine Yields.bind_of_eq (Rule.run_of_findAll_nil hlinkage _) ?_
  refine (run_classes h hs).bind fun scan hs => ?_
  refine Yields.bind_of_eq (Rule.run_of_findAll_nil haccess _) ?_
  refine (run_functions h hs).bind fun scan hs => ?_
  exact run_fields h hs

end TrailingStruct

/-! ## The summary -/

/-- A struct whose function has a trailing return type is read back with the function as its one
method.  Of the specifiers behind the type only the last one is cut off, and without specifiers the
type is cut itself, where it ends with one of their words: the type is recorded as it stands if and
only if it has exactly one specifier behind it, or none and neither word at its end. -/
theorem parse_trailingStruct (s : TrailingStruct) :
    ∃ entry method, (Registry.cpp.parse s.text).classes = [entry] ∧
      entry.name = String.ofList s.name ∧ entry.kind = .struct ∧ entry.methods = [method] ∧
      method.name = "f" ∧
      method.returnType = some (String.ofList (reported s.type s.specifiers)) ∧
      (method.returnType = some (String.ofList s.type) ↔ s.specifiers.length = 1 ∨
        s.specifiers = [] ∧ ∀ word ∈ specifierWords, ¬ word <:+ s.type) := by
  obtain ⟨scan, hscan, ⟨draft, hclasses, hdraft, method, hmethods, hmethod⟩, -⟩ := s.scan_struct
  obtain ⟨summary, hsummary, hentries⟩ := Language.extract_classes hscan
  refine ⟨Scan.finishClass draft, method, ?_, hdraft.name, hdraft.kind, ?_, hmethod.name,
    hmethod.returnType, ?_⟩
  · rw [show Registry.cpp.parse s.text = summary from Extractor.parse_eq hsummary, hentries,
      hclasses]
    rfl
  · rw [Scan.finishClass, hmethods, List.mergeSort_singleton]
  · rw [hmethod.returnType, Option.some.injEq, String.ofList_inj]
    exact reported_eq_iff

/-- A struct whose function has both specifiers. -/
def overriddenFinally : TrailingStruct where
  name := ['S']
  type := "Foo".toList
  specifiers := specifierWords
  name_isName := ⟨⟨'S', rfl, by decide +kernel⟩, by decide +kernel⟩
  type_isWord := ⟨by decide, by decide +kernel⟩
  known := fun _ hword => hword

/-- Of both specifiers one is left behind the type. -/
theorem parse_trailingStruct_specifiers :
    overriddenFinally.text =
      "struct S \x7b auto f() -> Foo override final \x7b return x; \x7d \x7d;".toList ∧
    ∃ entry method, (Registry.cpp.parse overriddenFinally.text).classes = [entry] ∧
      entry.methods = [method] ∧ method.returnType = some "Foo override" := by
  have hreported : reported overriddenFinally.type overriddenFinally.specifiers =
      "Foo override".toList := by decide
  obtain ⟨entry, method, hclasses, -, -, hmethods, -, hreturn, -⟩ :=
    parse_trailingStruct overriddenFinally
  rw [hreported] at hreturn
  exact ⟨by decide, entry, method, hclasses, hmethods, hreturn⟩

end Cpp
end Outline
