import Mathlib.Data.List.Basic
import Outline.Proofs.Extraction.Growth
import Outline.Proofs.Extraction.Kind
import Outline.Proofs.Extraction.Registry
import Outline.Proofs.Pattern.Found
import Outline.Proofs.Source.Brace

/-!
# Whether a nested class is exported

All classes are recorded before the first access label is.  So when a class asks the one
around it what is visible at its place, there are no labels to count yet, and the answer
is what that class shows by default.
-/

namespace Outline

namespace Cpp

variable {text : List Char} {subject : Subject} {scan : Scan} {found : Match}

/-- Whether what starts at an offset can be seen outside of the class and the namespaces
around it, as far as they have been recorded. -/
def isVisible (subject : Subject) (scan : Scan) (start : Nat) : Bool :=
  ((scan.classAt? subject start).all fun (_, parent) =>
      parent.visibilityAt start == .publicMember)
    && !scan.inAnonymousScope subject start

/-- A class as it is recorded for a match that starts at an offset. -/
structure Declared (subject : Subject) (scan : Scan) (start : Nat) (draft : ClassDraft) :
    Prop where
  le_opening : start ≤ draft.opening
  labels : draft.labels = []
  isExported : draft.entry.isExported = isVisible subject scan start
  default : draft.defaultVisibility = .publicMember ↔
    draft.entry.kind = .struct ∨ draft.entry.kind = .union

theorem kindOf_cases (word : List Char) :
    kindOf word = .ordinary ∨ kindOf word = .struct ∨ kindOf word = .union := by
  unfold kindOf
  split
  · exact .inr (.inl rfl)
  · split
    · exact .inr (.inr rfl)
    · exact .inl rfl

theorem classFindings_declared {declaration name : Capture} {opening basesStart : Nat}
    (hle : found.start ≤ opening) :
    Allows (classFindings subject scan found declaration name opening basesStart) fun findings =>
      ∀ draft, .classBody draft ∈ findings → Declared subject scan found.start draft := by
  rw [classFindings]
  refine (allows_true _).bind fun bases _ => (allows_true _).bind fun body _ => .ok ?_
  intro draft hmem
  rcases List.mem_append.mp hmem with hmem | hmem
  · cases List.mem_singleton.mp hmem
    refine ⟨hle, rfl, rfl, ?_⟩
    show (if kindOf (found.text .kind) = .ordinary then Visibility.privateMember
      else .publicMember) = .publicMember ↔ _
    rcases kindOf_cases (found.text .kind) with hk | hk | hk <;> simp [hk]
  · have hwarning : Finding.Kind.classBody ∈ [Finding.Kind.warning] :=
      Finding.among_checkTerminated (by simp) subject body name.text declaration.start _ hmem
    exact absurd hwarning (by decide)

theorem findClass_declared (hf : classPattern.FoundIn subject.masked found) :
    Allows (findClass subject scan found) fun findings =>
      ∀ draft, .classBody draft ∈ findings → Declared subject scan found.start draft := by
  rw [findClass]
  split
  · next declaration name tail hdecl hname htail =>
    refine (allows_true _).bind fun start _ => (allows_true _).bind fun starts _ => ?_
    split
    · split
      · next opening basesStart hbody =>
        obtain ⟨hat, hstart, -⟩ := hf.part_at htail
        obtain ⟨-, -, -, hle⟩ := charAt?_classBody? hat hbody
        exact classFindings_declared (Nat.le_trans hstart hle)
      · exact .ok (by simp)
    · exact .ok (by simp)
  · exact .ok (by simp)

/-! ## The order of a run -/

def classRule : Rule := ⟨.masked, classPattern, findClass⟩

/-- One event comes before another one: where it tells of a class, the blocks that the
other one tells of open behind its start, and where the other one tells of a class, it
tells of no label. -/
structure Precedes (first second : Event) : Prop where
  opensBehind : ∀ draft, .classBody draft ∈ first.findings → ∀ finding ∈ second.findings,
    ∀ opening, finding.opening? = some opening → first.found.start ≤ opening
  labelsLater : ∀ draft, .classBody draft ∈ second.findings →
    ∀ index offset visibility, .label index offset visibility ∉ first.findings

theorem Precedes.of_among {first second : Event} {a b : List Finding.Kind}
    (ha : Finding.Among a first.findings) (hb : Finding.Among b second.findings)
    (hopens : .classBody ∉ a ∨ .classBody ∉ b ∧ .block ∉ b)
    (hlabels : .label ∉ a ∨ .classBody ∉ b) : Precedes first second := by
  refine ⟨fun draft hd finding hf opening ho => ?_, fun draft hd index offset visibility hl => ?_⟩
  · have hkind := hb finding hf
    rcases hopens with hopens | ⟨hclass, hblock⟩
    · exact absurd (ha _ hd) hopens
    · cases finding with
      | classBody => exact absurd hkind hclass
      | block => exact absurd hkind hblock
      | package | imported | label | abstractClass | method | property | function | error
      | warning => cases ho
  · rcases hlabels with hlabels | hclass
    · exact absurd (ha _ hl) hlabels
    · exact absurd (hb _ hd) hclass

/-- What rules find before they look for classes. -/
def outlineKinds : List Finding.Kind := [.imported, .block]

def classKinds : List Finding.Kind := [.classBody, .warning]

/-- What rules find after they have looked for classes. -/
def memberKinds : List Finding.Kind :=
  [.label, .warning, .abstractClass, .method, .function, .property]

theorem finds_outline : ∀ rule ∈ language.rules.take 3, rule.Finds outlineKinds := by
  intro rule hr subject scan found
  simp only [language, List.take, List.mem_cons, List.not_mem_nil, or_false] at hr
  rcases hr with rfl | rfl | rfl
  · exact (@findInclude_among subject scan found).mono fun _ h => h.mono (by decide)
  · exact (@findNamespace_among subject scan found).mono fun _ h => h.mono (by decide)
  · exact (@findLinkage_among subject scan found).mono fun _ h => h.mono (by decide)

theorem finds_members : ∀ rule ∈ language.rules.drop 4, rule.Finds memberKinds := by
  intro rule hr subject scan found
  simp only [language, List.drop, List.mem_cons, List.not_mem_nil, or_false] at hr
  rcases hr with rfl | rfl | rfl
  · exact findLabel_among.mono fun _ h => h.mono (by decide)
  · exact findFunction_among.mono fun _ h => h.mono (by decide)
  · exact findField_among.mono fun _ h => h.mono (by decide)

/-- A run looks for all classes in one go, one after the other. -/
structure Staged (subject : Subject) (outline declared members : List Event) : Prop where
  outline : ∀ event ∈ outline, Finding.Among outlineKinds event.findings
  classes : ∀ event ∈ declared, Finding.Among classKinds event.findings
  members : ∀ event ∈ members, Finding.Among memberKinds event.findings
  sites : declared.map Event.site = (classPattern.findAll subject.masked).map (classRule, ·)

theorem exists_staged {events : List Event} (h : language.Run subject events) :
    ∃ outline declared members, events = outline ++ declared ++ members ∧
      Staged subject outline declared members := by
  have hrules : language.rules = language.rules.take 3 ++ classRule :: language.rules.drop 4 := rfl
  obtain ⟨outline, declared, members, rfl, houtline, hdeclared, hmembers⟩ := h.exists_around hrules
  have hrule : ∀ event ∈ declared, event.rule = classRule := by
    intro event he
    have hsite : event.site ∈ (classPattern.findAll subject.masked).map (classRule, ·) :=
      hdeclared ▸ List.mem_map_of_mem he
    obtain ⟨found, -, heq⟩ := List.mem_map.mp hsite
    exact (Prod.mk.inj heq).1.symm
  refine ⟨outline, declared, members, (List.append_assoc _ _ _).symm, ?_, ?_, ?_, hdeclared⟩
  · intro event he
    exact h.told.among (by simp [he]) (finds_outline _ (houtline event he))
  · intro event he
    refine h.told.among (by simp [he]) ?_
    rw [hrule event he]
    exact fun _ _ _ => findClass_among
  · intro event he
    exact h.told.among (by simp [he]) (finds_members _ (hmembers event he))

namespace Staged

variable {outline declared members before later : List Event} {event : Event} {draft : ClassDraft}

/-- An event that tells of a class is one of those that look for classes. -/
theorem site_of_class (h : Staged subject outline declared members)
    (he : event ∈ outline ++ declared ++ members) (hd : .classBody draft ∈ event.findings) :
    event ∈ declared := by
  rcases List.mem_append.mp he with he | he
  · rcases List.mem_append.mp he with he | he
    · exact absurd (show Finding.Kind.classBody ∈ outlineKinds from h.outline event he _ hd) (by decide)
    · exact he
  · exact absurd (show Finding.Kind.classBody ∈ memberKinds from h.members event he _ hd) (by decide)

theorem declared_of_class (h : Staged subject outline declared members)
    (ht : Told subject (outline ++ declared ++ members))
    (hsplit : outline ++ declared ++ members = before ++ event :: later)
    (hd : .classBody draft ∈ event.findings) :
    Declared subject (Scan.after before) event.found.start draft := by
  have he : event ∈ declared := h.site_of_class (by simp [hsplit]) hd
  have hsite : event.site ∈ (classPattern.findAll subject.masked).map (classRule, ·) :=
    h.sites ▸ List.mem_map_of_mem he
  obtain ⟨found, hfound, heq⟩ := List.mem_map.mp hsite
  obtain ⟨hrule, rfl⟩ := Prod.mk.inj heq
  have happly := ht before event later hsplit
  rw [← hrule] at happly
  exact findClass_declared (Pattern.foundIn_of_mem_findAll hfound) _ happly draft hd

theorem pairwise_start (h : Staged subject outline declared members) :
    declared.Pairwise fun a b => a.found.start < b.found.start := by
  have hfound : declared.map Event.found = classPattern.findAll subject.masked := by
    have hmap := congrArg (List.map Prod.snd) h.sites
    rw [List.map_map, List.map_map, show Prod.snd ∘ Prod.mk classRule = id from rfl,
      List.map_id] at hmap
    exact hmap
  have hpair := classPattern.pairwise_findAll subject.masked
  rw [← hfound, List.pairwise_map] at hpair
  exact hpair

theorem pairwise (h : Staged subject outline declared members)
    (ht : Told subject (outline ++ declared ++ members)) :
    (outline ++ declared ++ members).Pairwise Precedes := by
  have hclasses : declared.Pairwise Precedes := by
    refine h.pairwise_start.imp_of_mem fun {first second} hf hs hlt => ?_
    refine ⟨fun draft _ finding hfinding opening ho => ?_, fun draft _ _ _ _ hl => ?_⟩
    · have hkind := h.classes second hs finding hfinding
      cases finding with
      | classBody draft' =>
        obtain ⟨a, b, hab⟩ := List.append_of_mem hs
        have hsplit : outline ++ declared ++ members =
            outline ++ a ++ second :: (b ++ members) := by simp [hab]
        have hdecl := h.declared_of_class ht hsplit hfinding
        cases ho
        exact Nat.le_trans (Nat.le_of_lt hlt) hdecl.le_opening
      | block => exact absurd (show Finding.Kind.block ∈ classKinds from hkind) (by decide)
      | package | imported | label | abstractClass | method | property | function | error
      | warning => cases ho
    · exact absurd (show Finding.Kind.label ∈ classKinds from h.classes first hf _ hl) (by decide)
  have hall : ∀ {events : List Event} {kinds : List Finding.Kind},
      (∀ event ∈ events, Finding.Among kinds event.findings) → .classBody ∉ kinds →
      events.Pairwise Precedes := by
    intro events kinds hamong hk
    refine List.pairwise_of_forall_mem_list fun first hf second hs => ?_
    exact .of_among (hamong first hf) (hamong second hs) (.inl hk) (.inr hk)
  refine List.pairwise_append.mpr ⟨List.pairwise_append.mpr ⟨hall h.outline (by decide),
    hclasses, fun first hf second hs => ?_⟩, hall h.members (by decide), fun first hf second hs => ?_⟩
  · exact .of_among (h.outline first hf) (h.classes second hs) (.inl (by decide)) (.inl (by decide))
  · rcases List.mem_append.mp hf with hf | hf
    · exact .of_among (h.outline first hf) (h.members second hs) (.inl (by decide))
        (.inl (by decide))
    · exact .of_among (h.classes first hf) (h.members second hs) (.inr (by decide))
        (.inl (by decide))

end Staged

/-! ## What a nested class sees -/

/-- What is known of the scan when a class is recorded for a match that starts at an offset:
no class has labels yet, and blocks that are recorded from here on open at the offset or
behind it. -/
structure Clear (before rest : List Event) (start : Nat) : Prop where
  labels : ∀ draft ∈ (Scan.after before).classes, draft.labels = []
  behind : ∀ finding ∈ rest.flatMap Event.findings, ∀ opening,
    finding.opening? = some opening → start ≤ opening

theorem Staged.clear {outline declared members before later : List Event} {event : Event}
    (h : Staged subject outline declared members)
    (ht : Told subject (outline ++ declared ++ members))
    (hsplit : outline ++ declared ++ members = before ++ event :: later) {draft : ClassDraft}
    (hd : .classBody draft ∈ event.findings) : Clear before (event :: later) event.found.start := by
  have hpair := h.pairwise ht
  rw [hsplit] at hpair
  obtain ⟨-, hrest, hbefore⟩ := List.pairwise_append.mp hpair
  refine ⟨?_, fun finding hf opening ho => ?_⟩
  · refine Scan.labels_recordAll (by simp [Scan.empty]) (fun index offset visibility hl => ?_)
      fun draft' hd' => ?_
    · obtain ⟨event', he, hl⟩ := List.mem_flatMap.mp hl
      exact (hbefore event' he event List.mem_cons_self).labelsLater draft hd _ _ _ hl
    · obtain ⟨event', he, hfinding⟩ := List.mem_flatMap.mp hd'
      obtain ⟨a, b, rfl⟩ := List.append_of_mem he
      have hsplit' : outline ++ declared ++ members = a ++ event' :: (b ++ event :: later) := by
        simp [hsplit]
      exact (h.declared_of_class ht hsplit' hfinding).labels
  · obtain ⟨event', he, hfinding⟩ := List.mem_flatMap.mp hf
    rcases List.mem_cons.mp he with rfl | he
    · have hkind := h.classes _ (h.site_of_class (by simp [hsplit]) hd) finding hfinding
      cases finding with
      | classBody draft' =>
        cases ho
        exact (h.declared_of_class ht hsplit hfinding).le_opening
      | block => exact absurd (show Finding.Kind.block ∈ classKinds from hkind) (by decide)
      | package | imported | label | abstractClass | method | property | function | error
      | warning => cases ho
    · exact ((List.pairwise_cons.mp hrest).1 event' he).opensBehind draft hd finding hfinding
        opening ho

namespace Clear

variable {before rest : List Event} {start : Nat}

theorem blockAt?_eq (h : Clear before rest start) {opening : Nat} (hlt : opening < start) :
    (Scan.after (before ++ rest)).blockAt? opening = (Scan.after before).blockAt? opening := by
  rw [Scan.after_append]
  refine Scan.blockAt?_recordAll fun finding hf ho => ?_
  have := h.behind finding hf opening ho
  omega

theorem inAnonymousScope_eq (h : Clear before rest start)
    (hb : subject.source.braces = .ofText subject.masked) :
    (Scan.after (before ++ rest)).inAnonymousScope subject start =
      (Scan.after before).inAnonymousScope subject start := by
  unfold Scan.inAnonymousScope Scan.scopesAt
  congr 1
  refine List.filterMap_congr fun opening ho => ?_
  rw [hb] at ho
  rw [h.blockAt?_eq (BraceIndex.lt_of_mem_enclosingChain ho)]

/-- The class around a place is known before anything at the place is, and shows what it
shows by default. -/
theorem classAt?_eq (h : Clear before rest start)
    (hb : subject.source.braces = .ofText subject.masked) (hf : (Scan.after before).Framed)
    {outer : Nat} {parent : ClassDraft}
    (hc : (Scan.after (before ++ rest)).classAt? subject start = some (outer, parent)) :
    ∃ known, (Scan.after before).classAt? subject start = some (outer, known) ∧
      known.visibilityAt start = parent.defaultVisibility := by
  obtain ⟨opening, ho, hblock⟩ := Scan.enclosing_of_classAt? hc
  have hlt : opening < start := by
    rw [BraceIndex.enclosingOpen, hb] at ho
    exact BraceIndex.lt_of_mem_enclosingChain (List.mem_of_mem_head? ho)
  have hknown := hblock
  rw [h.blockAt?_eq hlt] at hknown
  obtain ⟨known, hget, -⟩ := hf.exists_draft hknown
  obtain ⟨parent', hget', hgiven⟩ :=
    Scan.getElem?_given_recordAll hget (rest.flatMap Event.findings)
  have hparent : parent' = parent := by
    have hget := Scan.getElem?_of_classAt? hc
    rw [Scan.after_append, hget'] at hget
    exact Option.some.inj hget
  refine ⟨known, ?_, ?_⟩
  · simp only [Scan.classAt?, ho, Option.bind_some, hknown, hget, Option.map_some]
  · have hdefault : parent'.defaultVisibility = known.defaultVisibility := by
      show parent'.given.defaultVisibility = known.given.defaultVisibility
      rw [hgiven]
    rw [ClassDraft.visibilityAt, h.labels known (List.mem_of_getElem? hget), ← hparent, hdefault]
    rfl

end Clear

/-! ## The flag of a nested class -/

theorem framed_after {events : List Event} (ht : Told subject events)
    (hr : ∀ event ∈ events, event.rule ∈ language.rules) : (Scan.after events).Framed := by
  obtain ⟨framing, filling, hrules, hframing, hfilling⟩ := phased subject
  refine Scan.framed_empty.recordAll fun opening index hmem => ?_
  obtain ⟨event, he, hfinding⟩ := List.mem_flatMap.mp hmem
  obtain ⟨before, later, rfl⟩ := List.append_of_mem he
  have hphase : ∃ phase, event.rule.Contributes phase subject := by
    have hrule := hr event he
    rw [hrules] at hrule
    rcases List.mem_append.mp hrule with hrule | hrule
    · exact ⟨.framing, hframing _ hrule⟩
    · exact ⟨.filling, hfilling _ hrule⟩
  obtain ⟨phase, hphase⟩ := hphase
  exact ((ht.contributes hphase).allowed _ hfinding).2 index rfl

/-- A class that is recorded for a match in the body of another one is exported if that one
is a struct or a union and no namespace around it is anonymous. -/
theorem isExported_of_classAt? {before later : List Event} {event : Event} {draft : ClassDraft}
    (h : language.Run subject (before ++ event :: later))
    (hb : subject.source.braces = .ofText subject.masked) (hd : .classBody draft ∈ event.findings)
    {outer : Nat} {parent : ClassDraft}
    (hc : (Scan.after (before ++ event :: later)).classAt? subject event.found.start =
      some (outer, parent)) :
    draft.entry.isExported = (parent.defaultVisibility == .publicMember &&
      !(Scan.after (before ++ event :: later)).inAnonymousScope subject event.found.start) := by
  obtain ⟨outline, declared, members, hsplit, hstaged⟩ := exists_staged h
  have htold : Told subject (outline ++ declared ++ members) := hsplit ▸ h.told
  have hdecl := hstaged.declared_of_class htold hsplit.symm hd
  have hclear := hstaged.clear htold hsplit.symm hd
  have hframed : (Scan.after before).Framed :=
    framed_after h.told.of_append fun event' he =>
      Language.rule_mem_of_sites h.sites event' (List.mem_append_left _ he)
  obtain ⟨known, hknown, hvisible⟩ := hclear.classAt?_eq hb hframed hc
  rw [hdecl.isExported, isVisible, hknown, ← hvisible, hclear.inAnonymousScope_eq hb]
  rfl

/-- Structs and unions show their members by default. -/
theorem default_of_mem_classes {events : List Event} (h : language.Run subject events)
    {draft : ClassDraft} (hd : draft ∈ (Scan.after events).classes) :
    draft.defaultVisibility = .publicMember ↔
      draft.entry.kind = .struct ∨ draft.entry.kind = .union := by
  have hgiven : draft.given ∈ (Scan.after events).classes.map ClassDraft.given :=
    List.mem_map_of_mem hd
  rw [Scan.after, Scan.given_recordAll] at hgiven
  obtain ⟨first, hfirst, heq⟩ := List.mem_map.mp hgiven
  obtain ⟨event, he, hfinding⟩ := List.mem_flatMap.mp (mem_of_draft? hfirst)
  obtain ⟨outline, declared, members, rfl, hstaged⟩ := exists_staged h
  obtain ⟨before, later, hsplit⟩ := List.append_of_mem he
  have hdefault := (hstaged.declared_of_class h.told hsplit hfinding).default
  show draft.given.defaultVisibility = .publicMember ↔
    draft.given.entry.kind = .struct ∨ draft.given.entry.kind = .union
  rw [← heq]
  exact hdefault

/-- Which nested classes are exported.  Every class comes from a match.  Where that starts in
the body of another class, the class is exported if the other one is a struct or a union and
no namespace around it is anonymous, whatever access labels come before it.  So the flag
is that of the last label if the label says what the other class shows by default, or if
some namespace is anonymous, and not otherwise. -/
theorem nested_isExported (text : List Char) :
    ∃ scan events, language.scan (language.subject text) = .ok scan ∧
      language.Run (language.subject text) events ∧ scan = Scan.after events ∧
      (Registry.cpp.parse text).classes = scan.classes.map Scan.finishClass ∧
      ∀ index nested, scan.classes[index]? = some nested →
        ∃ start, ClassFrom events index start ∧
          ∀ outer parent, scan.classAt? (language.subject text) start = some (outer, parent) →
            (nested.entry.isExported = true ↔
              (parent.entry.kind = .struct ∨ parent.entry.kind = .union) ∧
                scan.inAnonymousScope (language.subject text) start = false) ∧
            ((nested.entry.isExported = true ↔ parent.visibilityAt start = .publicMember ∧
                scan.inAnonymousScope (language.subject text) start = false) ↔
              scan.inAnonymousScope (language.subject text) start = true ∨
                (parent.visibilityAt start = .publicMember ↔
                  parent.entry.kind = .struct ∨ parent.entry.kind = .union)) := by
  obtain ⟨scan, hscan, -⟩ := Language.scan_yields (ensures_of_mem_rules text)
  obtain ⟨events, hrun, hafter, hcontained⟩ := Language.contained_of_scan (.inr rfl) text hscan
  obtain ⟨summary, hsummary, hclasses⟩ := Language.extract_classes hscan
  refine ⟨scan, events, hscan, hrun, hafter, ?_, fun index nested hnested => ?_⟩
  · rw [show Registry.cpp.parse text = summary from Extractor.parse_eq hsummary, hclasses]
  have hone : ∀ event ∈ events, event.findings.countP Finding.opensClass ≤ 1 := by
    intro event he
    obtain ⟨before, later, hsplit⟩ := List.append_of_mem he
    exact (hcontained.onePlace before event later hsplit).1
  subst hafter
  obtain ⟨start, hfrom⟩ := exists_classFrom hone (List.getElem?_eq_some_iff.mp hnested).1
  refine ⟨start, hfrom, fun outer parent hparent => ?_⟩
  obtain ⟨before, event, later, draft, rfl, hindex, rfl, hdraft⟩ := hfrom
  have hgiven := given_of_classFrom hdraft (hone event (by simp)) (hindex ▸ hnested)
  have hflag : nested.entry.isExported = draft.entry.isExported := by
    show nested.given.entry.isExported = draft.given.entry.isExported
    rw [hgiven]
  have hkind := default_of_mem_classes hrun (List.mem_of_getElem? (Scan.getElem?_of_classAt? hparent))
  have hexported := isExported_of_classAt? hrun rfl hdraft hparent
  rw [hflag, hexported, Bool.and_eq_true, beq_iff_eq, Bool.not_eq_true', hkind]
  refine ⟨Iff.rfl, ?_⟩
  cases Scan.inAnonymousScope _ _ _ <;> simp [eq_comm, iff_comm]

example : (Registry.cpp.parse "class A \x7b public: struct B \x7b\x7d; \x7d;".toList).classes.map
    (fun entry => (entry.name, entry.isExported)) = [("A", true), ("B", false)] := by
  decide +kernel

end Cpp
end Outline
