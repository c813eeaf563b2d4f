import Outline.Extraction.Cpp.Rule
import Outline.Extraction.Java.Rule
import Outline.Proofs.Extraction.Contribution
import Outline.Proofs.Extraction.Cpp.Rule

/-!
# Containment

Functions lie outside of every class and members inside of theirs, in Java and in
C++.  Both languages find packages, imports, namespaces and classes before they
look for functions, methods and fields.
-/

namespace Outline

variable {phase : Phase} {subject : Subject} {scan : Scan} {start : Nat}

namespace Contributes

/-- Findings that are allowed and all go to one place, if they go to any. -/
theorem of_place {findings : List Finding} (place : Option Nat)
    (h : ∀ finding ∈ findings, finding.Allowed phase subject scan start ∧
      (finding.place? scan.classes.length = none ∨
        finding.place? scan.classes.length = some place))
    (hc : findings.countP Finding.opensClass ≤ 1) :
    Contributes phase subject scan start findings := by
  refine ⟨fun finding hf => (h finding hf).1, ⟨place, fun finding hf p hp => ?_⟩, hc⟩
  rcases (h finding hf).2 with hnone | hsome
  · rw [hnone] at hp
    exact absurd hp (by simp)
  · rw [hsome] at hp
    exact (Option.some.inj hp).symm

theorem nil : Contributes phase subject scan start [] :=
  of_place none (by simp) (by simp)

theorem single {finding : Finding} (h : finding.Allowed phase subject scan start) :
    Contributes phase subject scan start [finding] := by
  refine of_place ((finding.place? scan.classes.length).getD none) (fun f hf => ?_) ?_
  · rw [List.mem_singleton.mp hf]
    refine ⟨h, ?_⟩
    cases finding.place? scan.classes.length with
    | none => exact .inl rfl
    | some place => exact .inr rfl
  · exact List.countP_le_length

theorem properties {α : Type} (index : Nat) (fields : List α) (entryOf : α → PropertyEntry) :
    Contributes phase subject scan start (fields.map fun a => .property index (entryOf a)) := by
  refine of_place (some index) (fun finding hf => ?_) ?_
  · obtain ⟨a, -, rfl⟩ := List.mem_map.mp hf
    exact ⟨trivial, .inr rfl⟩
  · have hnone : (fields.map fun a => Finding.property index (entryOf a)).countP
        Finding.opensClass = 0 := by
      rw [List.countP_map]
      exact List.countP_eq_zero.mpr fun _ _ => Bool.false_ne_true
    omega

theorem checkTerminated_append {body : Body} {name : List Char} {offset : Nat}
    {findings : List Finding} (h : Contributes phase subject scan start findings) :
    Contributes phase subject scan start
      (subject.checkTerminated body name offset ++ findings) := by
  rw [Subject.checkTerminated]
  split
  · exact h
  · obtain ⟨hallowed, ⟨place, hplace⟩, hc⟩ := h
    refine ⟨fun finding hf => ?_, ⟨place, fun finding hf => ?_⟩, hc⟩
    · rcases List.mem_cons.mp hf with rfl | hf
      · exact trivial
      · exact hallowed finding hf
    · rcases List.mem_cons.mp hf with rfl | hf
      · exact fun p hp => absurd hp (Option.some_ne_none p).symm
      · exact hplace finding hf

/-- A class, with fields that its own header declares. -/
theorem classBody {draft : ClassDraft} {body : Body} {name : List Char} {offset : Nat}
    {fields : List Finding} (hm : draft.entry.methods = [])
    (hf : ∀ finding ∈ fields, ∃ entry, finding = .property scan.classes.length entry) :
    Contributes .framing subject scan start
      ([.classBody draft] ++ subject.checkTerminated body name offset ++ fields) := by
  have hwarning : ∀ finding ∈ subject.checkTerminated body name offset,
      ∃ diagnostic, finding = .warning diagnostic := by
    intro finding hw
    rw [Subject.checkTerminated] at hw
    split at hw
    · exact absurd hw List.not_mem_nil
    · exact ⟨_, List.mem_singleton.mp hw⟩
  refine of_place (some scan.classes.length) (fun finding hmem => ?_) ?_
  · rcases List.mem_append.mp hmem with hmem | hmem
    · rcases List.mem_cons.mp hmem with rfl | hmem
      · exact ⟨⟨rfl, hm⟩, .inr rfl⟩
      · obtain ⟨diagnostic, rfl⟩ := hwarning finding hmem
        exact ⟨trivial, .inl rfl⟩
    · obtain ⟨entry, rfl⟩ := hf finding hmem
      exact ⟨trivial, .inr rfl⟩
  · have hnone : (subject.checkTerminated body name offset ++ fields).countP
        Finding.opensClass = 0 := by
      refine List.countP_eq_zero.mpr fun finding hmem => ?_
      rcases List.mem_append.mp hmem with hmem | hmem
      · obtain ⟨diagnostic, rfl⟩ := hwarning finding hmem
        exact Bool.false_ne_true
      · obtain ⟨entry, rfl⟩ := hf finding hmem
        exact Bool.false_ne_true
    rw [List.append_assoc, List.countP_append, hnone]
    exact List.countP_le_length

end Contributes

/-! ## Java -/

namespace Java

variable {found : Match}

theorem findPackage_contributes :
    Allows (findPackage subject scan found) (Contributes .framing subject scan found.start) := by
  refine (allows_true _).bind fun starts _ => ?_
  split
  · exact .ok (.single trivial)
  · exact .ok .nil

theorem findImport_contributes :
    Allows (findImport subject scan found) (Contributes .framing subject scan found.start) := by
  refine (allows_true _).bind fun live _ => ?_
  split
  · exact .ok (.single trivial)
  · exact .ok .nil

theorem recordComponents_properties (index : Nat) (range : Option (Nat × Nat)) :
    Allows (recordComponents subject index range) fun findings =>
      ∀ finding ∈ findings, ∃ entry, finding = .property index entry := by
  unfold recordComponents
  split
  · exact .ok (by simp)
  · refine (allows_true _).bind fun text _ => .ok ?_
    intro finding hf
    obtain ⟨component, -, rfl⟩ := List.mem_map.mp hf
    exact ⟨_, rfl⟩

theorem enumConstants_properties (index opening : Nat) (enumName : List Char) :
    Allows (enumConstants subject index opening enumName) fun findings =>
      ∀ finding ∈ findings, ∃ entry, finding = .property index entry := by
  refine (allows_true _).bind fun list _ => .ok ?_
  intro finding hf
  obtain ⟨⟨offset, piece⟩, -, hpiece⟩ := List.mem_filterMap.mp hf
  obtain ⟨name, -, rfl⟩ := Option.map_eq_some_iff.mp hpiece
  exact ⟨_, rfl⟩

theorem typeFindings_contributes {declaration name : Capture} {opening : Nat} :
    Allows (typeFindings subject scan found declaration name opening)
      (Contributes .framing subject scan found.start) := by
  rw [typeFindings]
  refine (allows_true _).bind fun header _ => (allows_true _).bind fun supertypes _ => ?_
  refine (allows_true _).bind fun body _ => ?_
  refine (recordComponents_properties _ _).bind fun components hcomponents => ?_
  dsimp only
  split
  · refine (enumConstants_properties _ _ _).bind fun constants hconstants => .ok ?_
    rw [List.append_assoc _ components]
    refine .classBody rfl fun finding hf => ?_
    rcases List.mem_append.mp hf with hf | hf
    · exact hcomponents finding hf
    · exact hconstants finding hf
  · refine .ok ?_
    rw [List.append_nil]
    exact .classBody rfl hcomponents

theorem findType_contributes :
    Allows (findType subject scan found) (Contributes .framing subject scan found.start) := by
  rw [findType]
  split
  · refine (allows_true _).bind fun starts _ => ?_
    split
    · split
      · exact typeFindings_contributes
      · exact .ok .nil
    · exact .ok .nil
  · exact .ok .nil

theorem classAt?_or_atTopLevel {name : Capture} {trailer : Trailer}
    (h : isMethodHere subject scan found name trailer = true) :
    (scan.classAt? subject found.start).isSome = true ∨
      scan.atTopLevel subject found.start = true := by
  unfold isMethodHere at h
  split at h
  · next hclass => exact .inl (by rw [hclass]; rfl)
  · rw [Bool.and_eq_true] at h
    exact .inr h.2

/-- A method goes to the class it stands in, or to the top level if it stands there. -/
theorem entered_contributes (entry : FunctionEntry)
    (h : (scan.classAt? subject found.start).isSome = true ∨
      scan.atTopLevel subject found.start = true) :
    Contributes .filling subject scan found.start
      [match scan.classAt? subject found.start with
        | some (index, _) => .method index entry
        | none => .function entry] := by
  split
  · next index draft hclass => exact .single ⟨rfl, draft, hclass⟩
  · next hclass => exact .single ⟨rfl, h.resolve_left (by simp [hclass])⟩

theorem methodFindings_contributes {declaration name : Capture}
    {parametersStart parametersStop : Nat} {trailer : Trailer}
    (h : (scan.classAt? subject found.start).isSome = true ∨
      scan.atTopLevel subject found.start = true) :
    Allows (methodFindings subject scan found declaration name parametersStart parametersStop
      trailer) (Contributes .filling subject scan found.start) := by
  rw [methodFindings]
  refine (allows_true _).bind fun returnType _ => (allows_true _).bind fun parametersText _ => ?_
  cases trailer with
  | body opening =>
    refine (allows_true _).bind fun body? _ => .ok ?_
    dsimp only
    split
    · exact .checkTerminated_append (entered_contributes _ h)
    · exact entered_contributes _ h
  | declaration stop => exact .ok (entered_contributes _ h)

theorem findMethod_contributes :
    Allows (findMethod subject scan found) (Contributes .filling subject scan found.start) := by
  rw [findMethod]
  split
  · refine (allows_true _).bind fun starts _ => ?_
    split
    · exact .ok .nil
    · dsimp only
      split
      · refine (allows_true _).bind fun trailer? _ => ?_
        split
        · split
          · next hhere => exact methodFindings_contributes (classAt?_or_atTopLevel hhere)
          · exact .ok .nil
        · exact .ok .nil
      · exact .ok .nil
  · exact .ok .nil

theorem findField_contributes :
    Allows (findField subject scan found) (Contributes .filling subject scan found.start) := by
  rw [findField]
  split
  · refine (allows_true _).bind fun starts _ => ?_
    split
    · exact .ok .nil
    · refine (allows_true _).bind fun typeText _ => (allows_true _).bind fun fields _ => .ok ?_
      exact .properties _ _ _
  · exact .ok .nil

theorem phased (subject : Subject) : language.Phased subject := by
  refine ⟨language.rules.take 3, language.rules.drop 3, (List.take_append_drop 3 _).symm, ?_, ?_⟩
  · intro rule hr scan found
    simp only [language, List.take, List.mem_cons, List.not_mem_nil, or_false] at hr
    rcases hr with rfl | rfl | rfl
    · exact findPackage_contributes
    · exact findImport_contributes
    · exact findType_contributes
  · intro rule hr scan found
    simp only [language, List.drop, List.mem_cons, List.not_mem_nil, or_false] at hr
    rcases hr with rfl | rfl
    · exact findMethod_contributes
    · exact findField_contributes

end Java

/-! ## C++ -/

namespace Cpp

variable {found : Match}

theorem findNamespace_contributes :
    Allows (findNamespace subject scan found) (Contributes .framing subject scan found.start) := by
  refine (allows_true _).bind fun starts _ => ?_
  split
  · exact .ok (.single ⟨rfl, fun _ => nofun⟩)
  · exact .ok .nil

theorem classFindings_contributes {declaration name : Capture} {opening basesStart : Nat} :
    Allows (classFindings subject scan found declaration name opening basesStart)
      (Contributes .framing subject scan found.start) := by
  rw [classFindings]
  refine (allows_true _).bind fun bases _ => (allows_true _).bind fun body _ => .ok ?_
  rw [← List.append_nil (_ ++ _)]
  exact .classBody rfl (by simp)

theorem findClass_contributes :
    Allows (findClass subject scan found) (Contributes .framing subject scan found.start) := by
  rw [findClass]
  split
  · refine (allows_true _).bind fun start _ => (allows_true _).bind fun starts _ => ?_
    split
    · split
      · exact classFindings_contributes
      · exact .ok .nil
    · exact .ok .nil
  · exact .ok .nil

theorem findLabel_contributes :
    Allows (findLabel subject scan found) (Contributes .framing subject scan found.start) := by
  rw [findLabel]
  split
  · exact .ok .nil
  · split
    · exact .ok (.single trivial)
    · exact .ok .nil

theorem classAt?_or_atTopLevel {trailer : Trailer}
    (h : isFunctionHere subject scan found trailer = true) :
    (scan.classAt? subject found.start).isSome = true ∨
      scan.atTopLevel subject found.start = true := by
  rw [isFunctionHere, Bool.or_eq_true, Bool.and_eq_true] at h
  exact h.imp_right And.right

/-- An abstract method also makes its class abstract. -/
theorem entered_contributes (entry : FunctionEntry) (ending : Ending)
    (h : (scan.classAt? subject found.start).isSome = true ∨
      scan.atTopLevel subject found.start = true) :
    Contributes .filling subject scan found.start
      (match scan.classAt? subject found.start, ending with
        | some (index, _), .pure _ => [.abstractClass index, .method index entry]
        | some (index, _), _ => [.method index entry]
        | none, _ => [.function entry]) := by
  split
  · next index draft stop hclass =>
    refine .of_place (some index) (fun finding hf => ?_) (Nat.zero_le 1)
    rcases List.mem_cons.mp hf with rfl | hf
    · exact ⟨trivial, .inr rfl⟩
    · rw [List.mem_singleton.mp hf]
      exact ⟨⟨rfl, draft, hclass⟩, .inr rfl⟩
  · next index draft hclass _ => exact .single ⟨rfl, draft, hclass⟩
  · next hclass => exact .single ⟨rfl, h.resolve_left (by simp [hclass])⟩

theorem functionFindings_contributes {head : Head}
    (h : (scan.classAt? subject found.start).isSome = true ∨
      scan.atTopLevel subject found.start = true) :
    Allows (functionFindings subject scan found head)
      (Contributes .filling subject scan found.start) := by
  rw [functionFindings]
  refine (allows_true _).bind fun parametersText _ => ?_
  dsimp only
  split
  · refine (allows_true _).bind fun body? _ => .ok ?_
    split
    · exact .checkTerminated_append (entered_contributes _ _ h)
    · exact entered_contributes _ _ h
  · exact .ok (entered_contributes _ _ h)

theorem findFunction_contributes :
    Allows (findFunction subject scan found) (Contributes .filling subject scan found.start) := by
  rw [findFunction]
  split
  · refine (allows_true _).bind fun starts _ => ?_
    split
    · exact .ok .nil
    · refine (allows_true _).bind fun declared _ => ?_
      split
      · exact .ok .nil
      · dsimp only
        split
        · refine (allows_true _).bind fun trailer? _ => ?_
          split
          · exact .ok .nil
          · refine (allows_true _).bind fun head? _ => ?_
            split
            · exact .ok .nil
            · split
              · next hhere => exact functionFindings_contributes (classAt?_or_atTopLevel hhere)
              · exact .ok .nil
        · exact .ok .nil
  · exact .ok .nil

theorem findField_contributes :
    Allows (findField subject scan found) (Contributes .filling subject scan found.start) := by
  rw [findField]
  split
  · refine (allows_true _).bind fun starts _ => ?_
    split
    · exact .ok .nil
    · refine (allows_true _).bind fun typeText _ => (allows_true _).bind fun fields _ => .ok ?_
      exact .properties _ _ _
  · exact .ok .nil

theorem phased (subject : Subject) : language.Phased subject := by
  refine ⟨language.rules.take 5, language.rules.drop 5, (List.take_append_drop 5 _).symm, ?_, ?_⟩
  · intro rule hr scan found
    simp only [language, List.take, List.mem_cons, List.not_mem_nil, or_false] at hr
    rcases hr with rfl | rfl | rfl | rfl | rfl
    · exact .ok (.single trivial)
    · exact findNamespace_contributes
    · exact .ok (.single ⟨rfl, fun _ h => absurd h (by simp)⟩)
    · exact findClass_contributes
    · exact findLabel_contributes
  · intro rule hr scan found
    simp only [language, List.drop, List.mem_cons, List.not_mem_nil, or_false] at hr
    rcases hr with rfl | rfl
    · exact findFunction_contributes
    · exact findField_contributes

end Cpp

/-! ## Both languages -/

/-- Whatever a source of either language is found to hold, functions come from
matches outside of every class and members from matches inside of theirs. -/
theorem Language.contained_of_scan {language : Language}
    (hl : language = Java.language ∨ language = Cpp.language) (text : List Char)
    (h : language.scan (language.subject text) = .ok scan) :
    ∃ events, language.Run (language.subject text) events ∧ scan = Scan.after events ∧
      Contained (language.subject text) scan events := by
  have hphased : language.Phased (language.subject text) := by
    rcases hl with rfl | rfl
    · exact Java.phased _
    · exact Cpp.phased _
  obtain ⟨events, hrun, rfl⟩ := Language.exists_run h
  exact ⟨events, hrun, rfl, hrun.contained hphased⟩

theorem Language.contained_of_scan_struct :
    ∃ scan, Cpp.language.scan (Cpp.language.subject
        "struct S \x7b int f(); \x7d; int g() \x7b\x7d".toList) = .ok scan ∧
      scan.functions.length = 1 ∧
      (scan.classes.map fun draft => draft.entry.methods.length) = [1] ∧
      ∃ events, Cpp.language.Run (Cpp.language.subject
          "struct S \x7b int f(); \x7d; int g() \x7b\x7d".toList) events ∧
        scan = Scan.after events ∧
        Contained (Cpp.language.subject "struct S \x7b int f(); \x7d; int g() \x7b\x7d".toList)
          scan events := by
  have hcount : ((Cpp.language.scan (Cpp.language.subject
      "struct S \x7b int f(); \x7d; int g() \x7b\x7d".toList)).toOption.map fun scan =>
        (scan.functions.length, scan.classes.map fun draft => draft.entry.methods.length)) =
      some (1, [1]) := by
    decide +kernel
  obtain ⟨scan, hscan, hlengths⟩ := Option.map_eq_some_iff.mp hcount
  obtain ⟨hfunctions, hmethods⟩ := Prod.mk.inj hlengths
  have hok : Cpp.language.scan (Cpp.language.subject
      "struct S \x7b int f(); \x7d; int g() \x7b\x7d".toList) = .ok scan := by
    revert hscan
    cases Cpp.language.scan _ with
    | error e => exact fun h => nomatch h
    | ok scan' => exact fun h => congrArg _ (Option.some.inj h)
  exact ⟨scan, hok, hfunctions, hmethods, contained_of_scan (.inr rfl) _ hok⟩

end Outline
