import Outline.Proofs.Extraction.Containment
import Outline.Proofs.Extraction.Import
import Outline.Proofs.Extraction.Literal
import Outline.Proofs.Extraction.Outcome
import Outline.Proofs.Pattern.Anchor

/-!
# Which imports of Java count

Imports are looked for in the text as it is, comments included, so that one may stand on
a line that the masked view leaves blank.  Such an import counts all the same when the
next line with code is that of another one.
-/

namespace Outline

namespace Java

/-! ## Imports and nothing else -/

section Tacit

variable {subject : Subject} {scan : Scan} {found : Match}

/-- None of the findings of an attempt is an import. -/
def Tacit (attempt : Except ExtractError (List Finding)) : Prop :=
  Allows attempt fun findings => ∀ finding ∈ findings, finding.import? = none

theorem import?_of_mem_checkTerminated {body : Body} {name : List Char} {offset : Nat}
    {finding : Finding} (h : finding ∈ subject.checkTerminated body name offset) :
    finding.import? = none := by
  rw [Subject.checkTerminated] at h
  split at h
  · exact absurd h List.not_mem_nil
  · rw [List.mem_singleton.mp h]
    rfl

theorem findPackage_tacit : Tacit (findPackage subject scan found) := by
  refine (allows_true _).bind fun starts _ => ?_
  split
  · exact .ok (by simp [Finding.import?])
  · exact .ok (by simp)

theorem typeFindings_tacit {declaration name : Capture} {opening : Nat} :
    Tacit (typeFindings subject scan found declaration name opening) := by
  rw [typeFindings]
  refine (allows_true _).bind fun header _ => (allows_true _).bind fun supertypes _ => ?_
  refine (allows_true _).bind fun body _ => ?_
  refine (recordComponents_properties _ _).bind fun components hcomponents => ?_
  have hall : ∀ (draft : ClassDraft) (constants : List Finding),
      (∀ finding ∈ constants, ∃ entry, finding = .property scan.classes.length entry) →
      ∀ finding ∈ [.classBody draft] ++ subject.checkTerminated body name.text declaration.start
        ++ components ++ constants, finding.import? = none := by
    intro draft constants hconstants finding hf
    simp only [List.mem_append, List.mem_singleton] at hf
    rcases hf with ((rfl | hf) | hf) | hf
    · rfl
    · exact import?_of_mem_checkTerminated hf
    · obtain ⟨entry, rfl⟩ := hcomponents finding hf
      rfl
    · obtain ⟨entry, rfl⟩ := hconstants finding hf
      rfl
  dsimp only
  split
  · exact (enumConstants_properties _ _ _).bind fun constants hconstants =>
      .ok (hall _ constants hconstants)
  · exact .ok (hall _ [] (by simp))

theorem findType_tacit : Tacit (findType subject scan found) := by
  rw [findType]
  split
  · refine (allows_true _).bind fun starts _ => ?_
    split
    · split
      · exact typeFindings_tacit
      · exact .ok (by simp)
    · exact .ok (by simp)
  · exact .ok (by simp)

theorem entered_tacit {warnings : List Finding} (entry : FunctionEntry)
    (h : ∀ finding ∈ warnings, finding.import? = none) :
    ∀ finding ∈ warnings ++ [match scan.classAt? subject found.start with
      | some (index, _) => .method index entry
      | none => .function entry], finding.import? = none := by
  intro finding hf
  rcases List.mem_append.mp hf with hf | hf
  · exact h finding hf
  · rw [List.mem_singleton.mp hf]
    split <;> rfl

theorem methodFindings_tacit {declaration name : Capture} {start stop : Nat} {trailer : Trailer} :
    Tacit (methodFindings subject scan found declaration name start stop trailer) := by
  rw [methodFindings]
  refine (allows_true _).bind fun returnType _ => (allows_true _).bind fun parameters _ => ?_
  cases trailer with
  | body opening =>
    refine (allows_true _).some.bind fun body? hbody => .ok (entered_tacit _ ?_)
    obtain ⟨body, rfl, -⟩ := hbody
    exact fun _ => import?_of_mem_checkTerminated
  | declaration stop => exact .ok (entered_tacit _ (by simp))

theorem findMethod_tacit : Tacit (findMethod subject scan found) := by
  rw [findMethod]
  split
  · refine (allows_true _).bind fun starts _ => ?_
    split
    · exact .ok (by simp)
    · dsimp only
      split
      · refine (allows_true _).bind fun trailer _ => ?_
        split
        · split
          · exact methodFindings_tacit
          · exact .ok (by simp)
        · exact .ok (by simp)
      · exact .ok (by simp)
  · exact .ok (by simp)

theorem findField_tacit : Tacit (findField subject scan found) := by
  rw [findField]
  split
  · refine (allows_true _).bind fun starts _ => ?_
    split
    · exact .ok (by simp)
    · refine (allows_true _).bind fun typeText _ => (allows_true _).bind fun fields _ => .ok ?_
      intro finding hf
      obtain ⟨field, -, rfl⟩ := List.mem_map.mp hf
      rfl
  · exact .ok (by simp)

end Tacit

/-! ## Imports that count -/

/-- Whether the first line with code, from a line of a view on, starts with `import`. -/
def importFollows (view : List Char) (line : Nat) : Bool :=
  (Text.firstCode? ((Text.splitAt '\n' view).drop (line - 1))).any
    (Text.startsWith · "import".toList)

/-- What a match of an import tells. -/
def importOf (text : List Char) (found : Match) : ImportEntry :=
  { source := String.ofList (found.text .path)
    names := [⟨String.ofList (if (found.part? .tail).isSome then ['*']
      else lastSegment (found.text .path)), none, false⟩]
    isExternal := isExternalImport (found.text .path)
    isStatic := (found.part? .mark).isSome
    line := (LineIndex.ofText text).lineOf found.start }

/-- Whether the import at a match counts. -/
def isLive (text : List Char) (found : Match) : Bool :=
  importFollows (Mask.masked .java text) ((LineIndex.ofText text).lineOf found.start)

section

variable {text : List Char} {found : Match}

/-- An import starts a line, where all views can be cut, and it counts when the rest of the
masked view starts with one. -/
theorem findImport_eq (hf : importPattern.FoundIn text found) (scan : Scan) :
    findImport (language.subject text) scan found =
      .ok (if isLive text found then [.imported (importOf text found)] else []) := by
  obtain ⟨before, rest, rfl, hstart, hline⟩ := hf.startsLine (by decide)
  obtain ⟨before', rest', hmasked, hbefore, -⟩ :=
    (Mask.blanks_masked language.maskRules (before ++ rest)).exists_append
  have htail : SourceText.tailFrom (language.subject (before ++ rest)).masked found.start =
      .ok rest' := by
    show SourceText.tailFrom (Mask.masked language.maskRules (before ++ rest)) found.start = _
    rw [hmasked, hstart, ← hbefore.width_eq, SourceText.tailFrom, Text.dropWidth?_width_append]
  have hline' : Text.startsLine before' = true := startsLine_of_blanks hbefore hline
  have hlive : isLive (before ++ rest) found =
      Text.startsWith (Text.trimStart rest') "import".toList := by
    rw [isLive, hstart, LineIndex.lineOf_width, importFollows, Nat.add_sub_cancel,
      ← hbefore.count_feed_eq]
    show (Text.firstCode? ((Text.splitAt '\n' (Mask.masked language.maskRules _)).drop _)).any _ = _
    rw [hmasked, Text.drop_splitAt hline', Text.startsWith_trimStart (by decide) (by decide)]
  rw [findImport, htail, hlive]
  show (if Text.startsWith (Text.trimStart rest') "import".toList = true then
    Except.ok [Finding.imported (importOf (before ++ rest) found)] else Except.ok []) = _
  split <;> rfl

/-- What a rule of the language says about imports: only one rule reads the text as it is. -/
def told (text : List Char) (rule : Rule) (found : Match) : Option ImportEntry :=
  if rule.view = .full ∧ isLive text found = true then some (importOf text found) else none

theorem imports_of_tacit {rule : Rule} (hview : rule.view = .masked)
    (h : ∀ scan found, Tacit (rule.apply (language.subject text) scan found)) :
    rule.Imports (told text rule) (language.subject text) := by
  intro scan found _
  refine (h scan found).mono fun findings hf => ?_
  rw [told, if_neg (by simp [hview])]
  exact List.filterMap_eq_nil_iff.mpr hf

theorem imports_of_mem_rules (text : List Char) :
    ∀ rule ∈ language.rules, rule.Imports (told text rule) (language.subject text) := by
  intro rule hr
  simp only [language, List.mem_cons, List.not_mem_nil, or_false] at hr
  rcases hr with rfl | rfl | rfl | rfl | rfl
  · exact imports_of_tacit rfl fun _ _ => findPackage_tacit
  · intro scan found hm
    have hf : importPattern.FoundIn text found := Pattern.foundIn_of_mem_findAll hm
    show Allows (findImport (language.subject text) scan found) _
    rw [findImport_eq hf]
    refine .ok ?_
    rw [told]
    cases isLive text found <;> rfl
  · exact imports_of_tacit rfl fun _ _ => findType_tacit
  · exact imports_of_tacit rfl fun _ _ => findMethod_tacit
  · exact imports_of_tacit rfl fun _ _ => findField_tacit

theorem sites_told (text : List Char) :
    ((language.sites (language.subject text)).filterMap fun site => told text site.1 site.2) =
      ((importPattern.findAll text).filter (isLive text)).map (importOf text) := by
  have hmasked : ∀ (pattern apply) (matched : List Match),
      (matched.map (Prod.mk (Rule.mk .masked pattern apply))).filterMap
        (fun site => told text site.1 site.2) = [] := by
    intro pattern apply matched
    rw [List.filterMap_map, List.filterMap_eq_nil_iff]
    intro found _
    show told text _ found = none
    simp [told]
  have hfull : ∀ (apply) (matched : List Match),
      (matched.map (Prod.mk (Rule.mk .full importPattern apply))).filterMap
        (fun site => told text site.1 site.2) =
        (matched.filter (isLive text)).map (importOf text) := by
    intro apply matched
    rw [List.filterMap_map, ← List.filterMap_eq_map, List.filterMap_filter]
    refine List.filterMap_congr fun found _ => ?_
    show told text _ found = _
    simp [told]
  simp only [Language.sites, language, List.flatMap_cons, List.flatMap_nil, List.filterMap_append,
    hmasked, hfull, List.append_nil, List.nil_append]
  rfl

/-- The line of an import that counts begins with `import` in the masked view, or it is blank
there and the next line with code begins so. -/
theorem line_of_importFollows {view : List Char} {line : Nat} (hline : 1 ≤ line)
    (h : importFollows view line = true) :
    ∃ code, (Text.splitAt '\n' view)[line - 1]? = some code ∧
      (Text.startsWith (Text.trimStart code) "import".toList = true ∨
        Text.trimStart code = [] ∧ importFollows view (line + 1) = true) := by
  have hnext : (Text.splitAt '\n' view).drop (line + 1 - 1) =
      ((Text.splitAt '\n' view).drop (line - 1)).tail := by
    rw [List.tail_drop]
    congr 1
    omega
  cases hlines : (Text.splitAt '\n' view).drop (line - 1) with
  | nil =>
    rw [importFollows, hlines] at h
    exact absurd h (by simp [Text.firstCode?])
  | cons code lines =>
    refine ⟨code, ?_, ?_⟩
    · rw [← List.head?_drop, hlines, List.head?_cons]
    · rw [importFollows, hlines, Text.firstCode?_cons] at h
      rw [importFollows, hnext, hlines, List.tail_cons]
      split at h
      · next hempty => exact .inr ⟨List.isEmpty_iff.mp hempty, h⟩
      · exact .inl h

end

/-- A failed extraction imports nothing. -/
theorem imports_eq_nil {text : List Char} (h : (Registry.java.parse text).isFailure = true) :
    (Registry.java.parse text).imports = [] := by
  cases hextract : Registry.java.extract text with
  | ok summary =>
    have hmeets := Language.extract_allows (gives_of_mem_rules text) summary hextract
    rw [Extractor.parse_eq hextract, hmeets.isFailure_eq_false] at h
    exact absurd h Bool.false_ne_true
  | error cause =>
    rw [Extractor.parse, hextract]
    rfl

/-- The imports of a text that can be read are those of its matches whose line in the masked
view, or else the first line with code after it, begins with `import`.  So an import in a
comment counts exactly when the next code is another import, and the line of one that counts,
where it is not blank in the masked view, begins with `import` there. -/
theorem imports_eq (text : List Char) :
    (Registry.java.parse text).imports =
        (if (Registry.java.parse text).isFailure then []
        else ((importPattern.findAll text).filter (isLive text)).map (importOf text)) ∧
      ∀ entry ∈ (Registry.java.parse text).imports,
        ∃ code, (Text.splitAt '\n' (Mask.masked .java text))[entry.line - 1]? = some code ∧
          (Text.startsWith (Text.trimStart code) "import".toList = true ∨
            Text.trimStart code = [] ∧
              importFollows (Mask.masked .java text) (entry.line + 1) = true) := by
  cases h : (Registry.java.parse text).isFailure with
  | true =>
    rw [imports_eq_nil h]
    exact ⟨rfl, by simp⟩
  | false =>
    have himports : (Registry.java.parse text).imports =
        ((importPattern.findAll text).filter (isLive text)).map (importOf text) := by
      rw [← sites_told]
      exact Language.extract_imports (imports_of_mem_rules text) _
        (Extractor.extract_of_not_failure h)
    refine ⟨himports, ?_⟩
    rw [himports]
    intro entry he
    obtain ⟨found, hf, rfl⟩ := List.mem_map.mp he
    exact line_of_importFollows (LineIndex.one_le_lineOf_ofText text found.start)
      (List.mem_filter.mp hf).2

/-- An import in a comment in front of another one counts, on a line that is blank in the masked
view; in front of anything else it does not. -/
theorem imports_eq_commented :
    (Registry.java.parse "/*\nimport a.b;\n*/\nimport c.d;\n".toList).imports.map
        (fun entry => (entry.source, entry.line)) = [("a.b", 2), ("c.d", 4)] ∧
      (Text.splitAt '\n' (Mask.masked .java "/*\nimport a.b;\n*/\nimport c.d;\n".toList))[1]? =
        some "           ".toList ∧
      (Registry.java.parse "/*\nimport a.b;\n*/\nclass C \x7b\x7d\n".toList).imports = [] :=
  ⟨by decide +kernel, by decide +kernel, (imports_eq _).1.trans (by decide +kernel)⟩

end Java
end Outline
