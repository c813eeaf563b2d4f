import Outline.Proofs.Extraction.Containment

/-!
# Which rule finds what

Each rule finds things of a few kinds and of no other.  So what a scan holds of one kind
comes from the rules that look for it: labels from one rule of C++, errors from the line
checks alone.
-/

namespace Outline

namespace Finding

inductive Kind
  | package | imported | block | classBody | label | abstractClass | method | property | function
  | error | warning
  deriving DecidableEq, Repr

def kind : Finding → Kind
  | .package _ => .package
  | .imported _ => .imported
  | .block _ _ => .block
  | .classBody _ => .classBody
  | .label _ _ _ => .label
  | .abstractClass _ => .abstractClass
  | .method _ _ => .method
  | .property _ _ => .property
  | .function _ => .function
  | .error _ => .error
  | .warning _ => .warning

/-- All of some findings are of given kinds. -/
def Among (kinds : List Kind) (findings : List Finding) : Prop :=
  ∀ finding ∈ findings, finding.kind ∈ kinds

variable {kinds : List Kind}

theorem among_nil : Among kinds [] := by simp [Among]

theorem among_singleton {finding : Finding} (h : finding.kind ∈ kinds) : Among kinds [finding] := by
  intro f hf
  exact List.mem_singleton.mp hf ▸ h

theorem Among.append {findings findings' : List Finding} (h : Among kinds findings)
    (h' : Among kinds findings') : Among kinds (findings ++ findings') := by
  intro f hf
  rcases List.mem_append.mp hf with hf | hf
  · exact h f hf
  · exact h' f hf

theorem Among.mono {more : List Kind} {findings : List Finding} (h : Among kinds findings)
    (hk : kinds ⊆ more) : Among more findings := fun finding hf => hk (h finding hf)

theorem among_map {α : Type} {entries : List α} {f : α → Finding} (h : ∀ a, (f a).kind ∈ kinds) :
    Among kinds (entries.map f) := by
  intro finding hf
  obtain ⟨a, -, rfl⟩ := List.mem_map.mp hf
  exact h a

theorem among_checkTerminated (h : Kind.warning ∈ kinds) (subject : Subject) (body : Body)
    (name : List Char) (offset : Nat) : Among kinds (subject.checkTerminated body name offset) := by
  rw [Subject.checkTerminated]
  split
  · exact among_nil
  · exact among_singleton h

end Finding

open Finding (among_nil among_singleton among_map among_checkTerminated)

/-- Whatever the rule tells is of given kinds. -/
def Rule.Finds (rule : Rule) (kinds : List Finding.Kind) : Prop :=
  ∀ subject scan found, Allows (rule.apply subject scan found) (Finding.Among kinds)

variable {subject : Subject} {scan : Scan} {found : Match} {kinds : List Finding.Kind}

/-- Events of a run tell of what their rules find. -/
theorem Told.among {events : List Event} (h : Told subject events) {event : Event}
    (he : event ∈ events) (hr : event.rule.Finds kinds) : Finding.Among kinds event.findings := by
  obtain ⟨before, later, hsplit⟩ := List.append_of_mem he
  exact hr _ _ _ _ (h before event later hsplit)

/-! ## Java -/

namespace Java

theorem findPackage_among : Allows (findPackage subject scan found) (Finding.Among [.package]) := by
  refine (allows_true _).bind fun starts _ => ?_
  split
  · exact .ok (among_singleton (by simp [Finding.kind]))
  · exact .ok among_nil

theorem findImport_among : Allows (findImport subject scan found) (Finding.Among [.imported]) := by
  refine (allows_true _).bind fun live _ => ?_
  split
  · exact .ok (among_singleton (by simp [Finding.kind]))
  · exact .ok among_nil

theorem among_of_properties {index : Nat} {findings : List Finding}
    (h : ∀ finding ∈ findings, ∃ entry, finding = .property index entry)
    (hk : Finding.Kind.property ∈ kinds) : Finding.Among kinds findings := by
  intro finding hf
  obtain ⟨entry, rfl⟩ := h finding hf
  exact hk

theorem typeFindings_among {declaration name : Capture} {opening : Nat} :
    Allows (typeFindings subject scan found declaration name opening)
      (Finding.Among [.classBody, .warning, .property]) := by
  rw [typeFindings]
  refine (allows_true _).bind fun header _ => (allows_true _).bind fun supertypes _ => ?_
  refine (allows_true _).bind fun body _ => ?_
  refine (recordComponents_properties _ _).bind fun components hcomponents => ?_
  have hclass : ∀ draft : ClassDraft, Finding.Among [.classBody, .warning, .property]
      ([.classBody draft] ++ subject.checkTerminated body name.text declaration.start
        ++ components) := by
    intro draft
    refine ((among_singleton ?_).append (among_checkTerminated ?_ _ _ _ _)).append ?_
    · simp [Finding.kind]
    · simp
    · exact among_of_properties hcomponents (by simp)
  dsimp only
  split
  · refine (enumConstants_properties _ _ _).bind fun constants hconstants => .ok ?_
    exact (hclass _).append (among_of_properties hconstants (by simp))
  · exact .ok ((hclass _).append among_nil)

theorem findType_among :
    Allows (findType subject scan found) (Finding.Among [.classBody, .warning, .property]) := by
  rw [findType]
  split
  · refine (allows_true _).bind fun starts _ => ?_
    split
    · split
      · exact typeFindings_among
      · exact .ok among_nil
    · exact .ok among_nil
  · exact .ok among_nil

theorem among_entered (entry : FunctionEntry) :
    Finding.Among [.warning, .method, .function] [match scan.classAt? subject found.start with
      | some (index, _) => .method index entry
      | none => .function entry] := by
  refine among_singleton ?_
  split <;> simp [Finding.kind]

theorem methodFindings_among {declaration name : Capture} {start stop : Nat} {trailer : Trailer} :
    Allows (methodFindings subject scan found declaration name start stop trailer)
      (Finding.Among [.warning, .method, .function]) := by
  rw [methodFindings]
  refine (allows_true _).bind fun returnType _ => (allows_true _).bind fun parameters _ => ?_
  cases trailer with
  | body opening =>
    refine (allows_true _).some.bind fun body? hbody => .ok (.append ?_ (among_entered _))
    obtain ⟨body, rfl, -⟩ := hbody
    exact among_checkTerminated (by simp) _ _ _ _
  | declaration stop => exact .ok (among_nil.append (among_entered _))

theorem findMethod_among :
    Allows (findMethod subject scan found) (Finding.Among [.warning, .method, .function]) := by
  rw [findMethod]
  split
  · refine (allows_true _).bind fun starts _ => ?_
    split
    · exact .ok among_nil
    · dsimp only
      split
      · refine (allows_true _).bind fun trailer _ => ?_
        split
        · split
          · exact methodFindings_among
          · exact .ok among_nil
        · exact .ok among_nil
      · exact .ok among_nil
  · exact .ok among_nil

theorem findField_among : Allows (findField subject scan found) (Finding.Among [.property]) := by
  rw [findField]
  split
  · refine (allows_true _).bind fun starts _ => ?_
    split
    · exact .ok among_nil
    · refine (allows_true _).bind fun typeText _ => (allows_true _).bind fun fields _ => .ok ?_
      exact among_map fun field => by simp [Finding.kind]
  · exact .ok among_nil

theorem finds_of_mem_rules :
    ∀ rule ∈ language.rules, ∃ kinds, rule.Finds kinds ∧ Finding.Kind.error ∉ kinds := by
  intro rule hr
  simp only [language, List.mem_cons, List.not_mem_nil, or_false] at hr
  rcases hr with rfl | rfl | rfl | rfl | rfl
  · exact ⟨_, fun _ _ _ => findPackage_among, by decide⟩
  · exact ⟨_, fun _ scan _ => @findImport_among _ scan _, by decide⟩
  · exact ⟨_, fun _ _ _ => findType_among, by decide⟩
  · exact ⟨_, fun _ _ _ => findMethod_among, by decide⟩
  · exact ⟨_, fun _ _ _ => findField_among, by decide⟩

end Java

/-! ## C++ -/

namespace Cpp

theorem findInclude_among : Allows (findInclude subject scan found) (Finding.Among [.imported]) :=
  .ok (among_singleton (by simp [Finding.kind]))

theorem findLinkage_among : Allows (findLinkage subject scan found) (Finding.Among [.block]) :=
  .ok (among_singleton (by simp [Finding.kind]))

theorem findNamespace_among : Allows (findNamespace subject scan found) (Finding.Among [.block]) := by
  refine (allows_true _).bind fun starts _ => ?_
  split
  · exact .ok (among_singleton (by simp [Finding.kind]))
  · exact .ok among_nil

theorem classFindings_among {declaration name : Capture} {opening basesStart : Nat} :
    Allows (classFindings subject scan found declaration name opening basesStart)
      (Finding.Among [.classBody, .warning]) := by
  rw [classFindings]
  refine (allows_true _).bind fun bases _ => (allows_true _).bind fun body _ => .ok ?_
  refine .append (among_singleton ?_) (among_checkTerminated ?_ _ _ _ _)
  · simp [Finding.kind]
  · simp

theorem findClass_among :
    Allows (findClass subject scan found) (Finding.Among [.classBody, .warning]) := by
  rw [findClass]
  split
  · refine (allows_true _).bind fun start _ => (allows_true _).bind fun starts _ => ?_
    split
    · split
      · exact classFindings_among
      · exact .ok among_nil
    · exact .ok among_nil
  · exact .ok among_nil

theorem findLabel_among : Allows (findLabel subject scan found) (Finding.Among [.label]) := by
  rw [findLabel]
  split
  · exact .ok among_nil
  · split
    · exact .ok (among_singleton (by simp [Finding.kind]))
    · exact .ok among_nil

theorem among_entered (owner : Option (Nat × ClassDraft)) (ending : Ending)
    (entry : FunctionEntry) :
    Finding.Among [.warning, .abstractClass, .method, .function] (match owner, ending with
      | some (index, _), .pure _ => [.abstractClass index, .method index entry]
      | some (index, _), _ => [.method index entry]
      | none, _ => [.function entry]) := by
  split <;> simp [Finding.Among, Finding.kind]

theorem functionFindings_among {head : Head} :
    Allows (functionFindings subject scan found head)
      (Finding.Among [.warning, .abstractClass, .method, .function]) := by
  rw [functionFindings]
  refine (allows_true _).bind fun parametersText _ => ?_
  dsimp only
  split
  · refine (allows_true _).some.bind fun body? hbody => .ok (.append ?_ (among_entered _ _ _))
    obtain ⟨body, rfl, -⟩ := hbody
    exact among_checkTerminated (by simp) _ _ _ _
  · exact .ok (among_nil.append (among_entered _ _ _))

theorem findFunction_among : Allows (findFunction subject scan found)
    (Finding.Among [.warning, .abstractClass, .method, .function]) := by
  rw [findFunction]
  split
  · refine (allows_true _).bind fun starts _ => ?_
    split
    · exact .ok among_nil
    · refine (allows_true _).bind fun declared _ => ?_
      split
      · exact .ok among_nil
      · dsimp only
        split
        · refine (allows_true _).bind fun trailer? _ => ?_
          split
          · exact .ok among_nil
          · refine (allows_true _).bind fun head? _ => ?_
            split
            · exact .ok among_nil
            · split
              · exact functionFindings_among
              · exact .ok among_nil
        · exact .ok among_nil
  · exact .ok among_nil

theorem findField_among : Allows (findField subject scan found) (Finding.Among [.property]) := by
  rw [findField]
  split
  · refine (allows_true _).bind fun starts _ => ?_
    split
    · exact .ok among_nil
    · refine (allows_true _).bind fun typeText _ => (allows_true _).bind fun fields _ => .ok ?_
      exact among_map fun field => by simp [Finding.kind]
  · exact .ok among_nil

theorem finds_of_mem_rules :
    ∀ rule ∈ language.rules, ∃ kinds, rule.Finds kinds ∧ Finding.Kind.error ∉ kinds := by
  intro rule hr
  simp only [language, List.mem_cons, List.not_mem_nil, or_false] at hr
  rcases hr with rfl | rfl | rfl | rfl | rfl | rfl | rfl
  · exact ⟨_, fun _ scan _ => @findInclude_among _ scan _, by decide⟩
  · exact ⟨_, fun _ scan _ => @findNamespace_among _ scan _, by decide⟩
  · exact ⟨_, fun subject scan _ => @findLinkage_among subject scan _, by decide⟩
  · exact ⟨_, fun _ _ _ => findClass_among, by decide⟩
  · exact ⟨_, fun _ _ _ => findLabel_among, by decide⟩
  · exact ⟨_, fun _ _ _ => findFunction_among, by decide⟩
  · exact ⟨_, fun _ _ _ => findField_among, by decide⟩

end Cpp

/-! ## What the line checks add -/

namespace Scan

theorem errors_recordAll {findings : List Finding} (h : Finding.Among kinds findings)
    (hk : Finding.Kind.error ∉ kinds) (scan : Scan) :
    (scan.recordAll findings).errors = scan.errors := by
  induction findings generalizing scan with
  | nil => rfl
  | cons finding findings ih =>
    rw [recordAll, List.foldl_cons, ← recordAll, ih fun f hf => h f (List.mem_cons_of_mem _ hf)]
    have hkind := h finding List.mem_cons_self
    cases finding with
    | error => exact absurd hkind hk
    | package | imported | block | classBody | label | abstractClass | method | property | function
    | warning => rfl

theorem classes_recordAll {findings : List Finding}
    (h : Finding.Among [.error, .warning] findings) (scan : Scan) :
    (scan.recordAll findings).classes = scan.classes := by
  induction findings generalizing scan with
  | nil => rfl
  | cons finding findings ih =>
    rw [recordAll, List.foldl_cons, ← recordAll, ih fun f hf => h f (List.mem_cons_of_mem _ hf)]
    have hkind := h finding List.mem_cons_self
    cases finding with
    | error | warning => rfl
    | package | imported | block | classBody | label | abstractClass | method | property
    | function => exact absurd hkind (by simp [Finding.kind])

theorem errors_recordAll_map (errors : List Diagnostic) (scan : Scan) :
    (scan.recordAll (errors.map .error)).errors = scan.errors ++ errors := by
  induction errors generalizing scan with
  | nil => exact (List.append_nil _).symm
  | cons error errors ih =>
    rw [List.map_cons, recordAll, List.foldl_cons, ← recordAll, ih]
    exact List.append_assoc scan.errors [error] errors

end Scan

namespace Language

variable {language : Language}

theorem hints_among (language : Language) (subject : Subject) :
    Finding.Among [.error, .warning] (language.hints subject) := by
  refine .append (among_map fun _ => ?_) (among_map fun _ => ?_) <;> simp [Finding.kind]

theorem errors_recordAll_hints (language : Language) (subject : Subject) (scan : Scan) :
    (scan.recordAll (language.hints subject)).errors =
      scan.errors ++ (LineCheck.check language.lineRules subject.masked).errors := by
  have hwarnings : Finding.Among [.warning]
      ((LineCheck.check language.lineRules subject.masked).warnings.map Finding.warning) :=
    among_map fun _ => by simp [Finding.kind]
  rw [hints, Scan.recordAll_append, Scan.errors_recordAll hwarnings (by decide),
    Scan.errors_recordAll_map]

/-- The rules of a language find no errors, so those of a summary come from the line checks. -/
theorem extract_errors
    (h : ∀ rule ∈ language.rules, ∃ kinds, rule.Finds kinds ∧ Finding.Kind.error ∉ kinds)
    (text : List Char) :
    Allows (language.extract text) fun summary => summary.syntaxErrors =
      (LineCheck.check language.lineRules (Mask.masked language.maskRules text)).errors.mergeSort
        Scan.diagnosticLe := by
  have hscan : Allows (language.scan (language.subject text)) fun scan => scan.errors = [] := by
    refine Allows.foldlM (fun scan hs rule hr => ?_) rfl
    obtain ⟨kinds, hfinds, hk⟩ := h rule hr
    refine Allows.foldlM (fun scan hs found _ => ?_) hs
    exact (hfinds _ scan found).map fun _ hf => (Scan.errors_recordAll hf hk scan).trans hs
  refine hscan.bind fun scan hs => .ok ?_
  show (scan.recordAll _).errors.mergeSort _ = _
  rw [errors_recordAll_hints, hs, List.nil_append]
  rfl

/-- The classes of a summary are those that the rules found. -/
theorem extract_classes {text : List Char} {scan : Scan}
    (h : language.scan (language.subject text) = .ok scan) :
    Yields (language.extract text) fun summary =>
      summary.classes = scan.classes.map Scan.finishClass := by
  rw [extract, h]
  refine .ok ?_
  show (scan.recordAll _).classes.map _ = _
  rw [Scan.classes_recordAll (hints_among language _)]

end Language

/-! ## Findings that keep something -/

/-- What findings of some kinds keep, all of them keep. -/
theorem Scan.recordAll_of_among {P : Scan → Prop} {kinds : List Finding.Kind}
    (hstep : ∀ scan, P scan → ∀ finding : Finding, finding.kind ∈ kinds → P (scan.record finding))
    {findings : List Finding} (h : Finding.Among kinds findings) {scan : Scan} (hs : P scan) :
    P (scan.recordAll findings) := by
  induction findings generalizing scan with
  | nil => exact hs
  | cons finding findings ih =>
    obtain ⟨hfirst, hrest⟩ := List.forall_mem_cons.mp h
    exact ih hrest (hstep scan hs finding hfirst)

/-- A rule keeps what the findings of its kinds keep. -/
theorem Rule.run_of_finds {P : Scan → Prop} {kinds : List Finding.Kind} {rule : Rule}
    {subject : Subject} (hfinds : rule.Finds kinds)
    (hstep : ∀ scan, P scan → ∀ finding : Finding, finding.kind ∈ kinds → P (scan.record finding))
    (h : ∀ scan, ∀ found ∈ rule.pattern.findAll (rule.text subject.source),
      Yields (rule.apply subject scan found) fun _ => True)
    {scan : Scan} (hs : P scan) : Yields (rule.run subject scan) P := by
  refine Rule.run_yields (fun scan hs found hf => ?_) hs
  refine ((h scan found hf).with_allows (hfinds subject scan found)).mono fun findings hamong => ?_
  exact Scan.recordAll_of_among hstep hamong hs

end Outline
