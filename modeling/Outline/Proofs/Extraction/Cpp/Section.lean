import Outline.Proofs.Extraction.Cpp.Label
import Outline.Proofs.Extraction.Cpp.Nested
import Outline.Proofs.Extraction.Fresh

/-!
# The sections of a class body

Access labels divide the body of a class into sections.  All labels are recorded before the first
member is, each with the class whose brace is the innermost one around it, and in the order of
their offsets.  So a member asks a list that is complete and in order, and what it is told is
what the last label in front of it says.
-/

namespace Outline

/-! ## The last label in front of an offset -/

namespace ClassDraft

theorem takeWhile_eq_filter {labels : List (Nat × Visibility)}
    (hs : labels.Pairwise fun a b => a.1 < b.1) (offset : Nat) :
    labels.takeWhile (·.1 < offset) = labels.filter (·.1 < offset) := by
  induction labels with
  | nil => rfl
  | cons label labels ih =>
    obtain ⟨hlater, hs⟩ := List.pairwise_cons.mp hs
    by_cases hlt : label.1 < offset
    · rw [List.takeWhile_cons_of_pos (by simpa using hlt), List.filter_cons_of_pos (by simpa using hlt),
        ih hs]
    · rw [List.takeWhile_cons_of_neg (by simpa using hlt), List.filter_cons_of_neg (by simpa using hlt),
        eq_comm, List.filter_eq_nil_iff]
      intro other hother
      have hle := hlater other hother
      simp only [decide_eq_true_eq]
      omega

variable {draft : ClassDraft} {offset : Nat}

/-- The visibility at an offset is that of the last label in front of it, if there is one, and the
standard one of the class if there is none. -/
theorem visibilityAt_cases (hs : draft.labels.Pairwise fun a b => a.1 < b.1) (offset : Nat) :
    (∃ start, (start, draft.visibilityAt offset) ∈ draft.labels ∧ start < offset ∧
      ∀ other ∈ draft.labels, other.1 < offset → other.1 ≤ start) ∨
    (draft.visibilityAt offset = draft.defaultVisibility ∧
      ∀ label ∈ draft.labels, offset ≤ label.1) := by
  have hfilter := takeWhile_eq_filter hs offset
  rw [visibilityAt, hfilter]
  cases hlast : (draft.labels.filter (·.1 < offset)).getLast? with
  | none =>
    refine .inr ⟨rfl, fun label hl => ?_⟩
    have hnone := List.filter_eq_nil_iff.mp (List.getLast?_eq_none_iff.mp hlast) label hl
    simpa using hnone
  | some last =>
    obtain ⟨before, hbefore⟩ := List.getLast?_eq_some_iff.mp hlast
    have hmem := List.mem_filter.mp (List.mem_of_getLast? hlast)
    refine .inl ⟨last.1, hmem.1, by simpa using hmem.2, fun other hother hlt => ?_⟩
    have hsorted := hs.filter (fun label => decide (label.1 < offset))
    rw [hbefore] at hsorted
    have hin : other ∈ before ++ [last] :=
      hbefore ▸ List.mem_filter.mpr ⟨hother, by simpa using hlt⟩
    rcases List.mem_append.mp hin with hin | hin
    · exact Nat.le_of_lt ((List.pairwise_append.mp hsorted).2.2 other hin last (by simp))
    · obtain rfl := List.mem_singleton.mp hin
      exact Nat.le_refl _

end ClassDraft

/-! ## Labels among findings -/

namespace Finding

/-- A label and the index of its class. -/
def label? : Finding → Option (Nat × Nat × Visibility)
  | .label index offset visibility => some (index, offset, visibility)
  | _ => none

theorem label?_eq_some_iff {finding : Finding} {index offset : Nat} {visibility : Visibility} :
    finding.label? = some (index, offset, visibility) ↔
      finding = .label index offset visibility := by
  cases finding <;> simp [label?]

theorem mem_ofClass_label {index offset : Nat} {visibility : Visibility}
    {findings : List Finding} :
    (offset, visibility) ∈ ofClass label? index findings ↔
      .label index offset visibility ∈ findings := by
  simp only [ofClass, List.mem_map, List.mem_filter, List.mem_filterMap]
  constructor
  · rintro ⟨⟨owner, label⟩, ⟨⟨finding, hf, hlabel⟩, hindex⟩, rfl⟩
    obtain rfl : owner = index := by simpa using hindex
    exact label?_eq_some_iff.mp hlabel ▸ hf
  · intro hf
    exact ⟨(index, offset, visibility), ⟨⟨_, hf, rfl⟩, by simp⟩, rfl⟩

end Finding

namespace Scan

/-- Where no class is found, the labels of each class are added to those that it has. -/
theorem getElem?_labels_recordAll {findings : List Finding}
    (h : ∀ draft, .classBody draft ∉ findings) (scan : Scan) (index : Nat) :
    ((scan.recordAll findings).classes.map ClassDraft.labels)[index]? =
      (scan.classes.map ClassDraft.labels)[index]?.map
        (· ++ Finding.ofClass Finding.label? index findings) := by
  induction findings generalizing scan with
  | nil =>
    rw [recordAll, List.foldl_nil]
    cases (scan.classes.map ClassDraft.labels)[index]? with
    | none => rfl
    | some own => exact congrArg some (List.append_nil own).symm
  | cons finding findings ih =>
    rw [recordAll, List.foldl_cons, ← recordAll, ih fun draft hd => h draft (by simp [hd])]
    cases finding with
    | classBody draft => exact absurd List.mem_cons_self (h draft)
    | label owner offset visibility =>
      have hmodify : ((scan.record (.label owner offset visibility)).classes.map ClassDraft.labels) =
          (scan.classes.map ClassDraft.labels).modify owner (· ++ [(offset, visibility)]) := by
        refine map_modify_eq ?_ owner scan.classes
        exact fun draft => rfl
      rw [hmodify, List.getElem?_modify, Finding.ofClass_cons_of_some rfl]
      cases (scan.classes.map ClassDraft.labels)[index]? with
      | none => rfl
      | some own => by_cases heq : owner = index <;> simp [heq]
    | package | imported | block | function | error | warning =>
      rw [Finding.ofClass_cons_of_none rfl]
      rfl
    | abstractClass owner | method owner | property owner =>
      rw [Finding.ofClass_cons_of_none rfl]
      refine congrArg (fun labels : List (List (Nat × Visibility)) => labels[index]?.map _) ?_
      refine map_modify ?_ owner scan.classes
      exact fun draft => rfl

end Scan

namespace Cpp

variable {subject : Subject} {scan : Scan} {found : Match} {events : List Event}

/-! ## One label -/

/-- A label that stands directly in the body that opens at a brace. -/
def LabelIn (subject : Subject) (opening offset : Nat) (visibility : Visibility) : Prop :=
  LabelAt subject.masked offset visibility ∧
    subject.source.braces.enclosingOpen offset = some opening

def labelRule : Rule := ⟨.masked, accessPattern, findLabel⟩

theorem findLabel_eq : findLabel subject scan found = .ok
    (if Text.charAt? subject.masked found.stop = some ':' then []
    else ((scan.classAt? subject found.start).map fun owner =>
      Finding.label owner.1 found.start (accessOf (found.text .kind))).toList) := by
  rw [findLabel]
  split
  · rfl
  · cases scan.classAt? subject found.start <;> rfl

/-- The class around a label is that of the innermost brace around it. -/
theorem classAt?_iff (hf : scan.Framed) {offset index : Nat} :
    (∃ draft, scan.classAt? subject offset = some (index, draft)) ↔
      ∃ opening, subject.source.braces.enclosingOpen offset = some opening ∧
        scan.blockAt? opening = some (.classBody index) := by
  constructor
  · rintro ⟨draft, hclass⟩
    exact Scan.enclosing_of_classAt? hclass
  · rintro ⟨opening, hopening, hblock⟩
    obtain ⟨draft, hdraft, -⟩ := hf.exists_draft hblock
    refine ⟨draft, ?_⟩
    simp only [Scan.classAt?, hopening, Option.bind_some, hblock, hdraft, Option.map_some]

theorem label_mem_iff {findings : List Finding}
    (h : findLabel subject scan found = .ok findings) (hf : scan.Framed) {index offset : Nat}
    {visibility : Visibility} :
    .label index offset visibility ∈ findings ↔
      found.start = offset ∧ Text.charAt? subject.masked found.stop ≠ some ':' ∧
        visibility = accessOf (found.text .kind) ∧
        ∃ opening, subject.source.braces.enclosingOpen offset = some opening ∧
          scan.blockAt? opening = some (.classBody index) := by
  obtain rfl := Except.ok.inj (findLabel_eq.symm.trans h)
  by_cases hcolon : Text.charAt? subject.masked found.stop = some ':'
  · simp [hcolon]
  · rw [if_neg hcolon, ← classAt?_iff hf, Option.mem_toList, Option.map_eq_some_iff]
    constructor
    · rintro ⟨⟨owner, draft⟩, hclass, heq⟩
      obtain ⟨rfl, rfl, rfl⟩ := Finding.label.inj heq
      exact ⟨rfl, hcolon, rfl, draft, hclass⟩
    · rintro ⟨rfl, -, rfl, draft, hclass⟩
      exact ⟨(index, draft), hclass, rfl⟩

/-! ## The order of a run -/

/-- What rules find before they look for labels. -/
def frontKinds : List Finding.Kind := outlineKinds ++ classKinds

/-- What rules find after they have looked for labels. -/
def entryKinds : List Finding.Kind := [.warning, .abstractClass, .method, .function, .property]

theorem finds_front : ∀ rule ∈ language.rules.take 4, rule.Finds frontKinds := by
  intro rule hr subject scan found
  rw [show language.rules.take 4 = language.rules.take 3 ++ [classRule] from rfl,
    List.mem_append, List.mem_singleton] at hr
  rcases hr with hr | rfl
  · exact (finds_outline rule hr subject scan found).mono fun _ h => h.mono (by decide)
  · exact findClass_among.mono fun _ h => h.mono (by decide)

theorem finds_entries : ∀ rule ∈ language.rules.drop 5, rule.Finds entryKinds := by
  intro rule hr subject scan found
  simp only [language, List.drop, List.mem_cons, List.not_mem_nil, or_false] at hr
  rcases hr with rfl | rfl
  · exact findFunction_among.mono fun _ h => h.mono (by decide)
  · exact findField_among.mono fun _ h => h.mono (by decide)

/-- A run looks for all labels in one go: when the classes are known, and before it looks for
members. -/
structure Sectioned (subject : Subject) (lead labelled entries : List Event) : Prop where
  run : language.Run subject (lead ++ (labelled ++ entries))
  lead : ∀ event ∈ lead, event.rule ∈ language.rules.take 4
  sites : labelled.map Event.site = (accessPattern.findAll subject.masked).map (labelRule, ·)
  entries : ∀ event ∈ entries, event.rule ∈ language.rules.drop 5

theorem exists_sectioned (h : language.Run subject events) :
    ∃ lead labelled entries, events = lead ++ (labelled ++ entries) ∧
      Sectioned subject lead labelled entries := by
  have hrules : language.rules = language.rules.take 4 ++ labelRule :: language.rules.drop 5 := rfl
  obtain ⟨lead, labelled, entries, rfl, hlead, hsites, hentries⟩ := h.exists_around hrules
  exact ⟨lead, labelled, entries, rfl, h, hlead, hsites, hentries⟩

theorem framed_of_run (h : language.Run subject events) {before later : List Event}
    (hsplit : events = before ++ later) : (Scan.after before).Framed := by
  subst hsplit
  exact framed_after h.told.of_append fun event he =>
    Language.rule_mem_of_sites h.sites event (List.mem_append_left later he)

/-- A class is recorded without labels. -/
theorem labels_of_classBody (h : language.Run subject events) {event : Event} (he : event ∈ events)
    {draft : ClassDraft} (hd : .classBody draft ∈ event.findings) : draft.labels = [] := by
  obtain ⟨outline, declared, members, rfl, hstaged⟩ := exists_staged h
  obtain ⟨before, later, hsplit⟩ := List.append_of_mem he
  exact (hstaged.declared_of_class h.told hsplit hd).labels

namespace Sectioned

variable {lead labelled entries mid later : List Event}

theorem among_lead (h : Sectioned subject lead labelled entries) :
    ∀ event ∈ lead, Finding.Among frontKinds event.findings := fun event he =>
  h.run.told.among (by simp [he]) (finds_front _ (h.lead event he))

theorem among_entries (h : Sectioned subject lead labelled entries) :
    ∀ event ∈ entries, Finding.Among entryKinds event.findings := fun event he =>
  h.run.told.among (by simp [he]) (finds_entries _ (h.entries event he))

theorem label_of_mem (h : Sectioned subject lead labelled entries) {event : Event}
    (he : event ∈ labelled) :
    event.rule = labelRule ∧ event.found ∈ accessPattern.findAll subject.masked := by
  have hsite : event.site ∈ (accessPattern.findAll subject.masked).map (labelRule, ·) :=
    h.sites ▸ List.mem_map_of_mem he
  obtain ⟨found, hfound, heq⟩ := List.mem_map.mp hsite
  obtain ⟨hrule, rfl⟩ := Prod.mk.inj heq
  exact ⟨hrule.symm, hfound⟩

/-- No event from the labels on changes the frame. -/
theorem among_of_mem (h : Sectioned subject lead labelled entries) {event : Event}
    (he : event ∈ labelled ++ entries) :
    Finding.Among (.label :: entryKinds) event.findings := by
  rcases List.mem_append.mp he with hl | hm
  · have hlabel : Finding.Among [.label] event.findings := by
      refine h.run.told.among (by simp [hl]) ?_
      rw [(h.label_of_mem hl).1]
      exact fun _ _ _ => findLabel_among
    exact hlabel.mono (by decide)
  · exact (h.among_entries event hm).mono (by decide)

theorem frame_eq (h : Sectioned subject lead labelled entries)
    (hsplit : labelled ++ entries = mid ++ later) :
    (Scan.after (lead ++ mid)).frame = (Scan.after lead).frame := by
  rw [Scan.after_append]
  refine Scan.frame_recordAll fun finding hf => ?_
  obtain ⟨event, he, hfinding⟩ := List.mem_flatMap.mp hf
  have hmem : event ∈ labelled ++ entries := by simp [hsplit, he]
  have hkind := h.among_of_mem hmem finding hfinding
  cases finding with
  | block => exact absurd (show Finding.Kind.block ∈ .label :: entryKinds from hkind) (by decide)
  | classBody =>
    exact absurd (show Finding.Kind.classBody ∈ .label :: entryKinds from hkind) (by decide)
  | package | imported | label | abstractClass | method | property | function | error | warning =>
    rfl

/-- From the labels on, the labels of a class are all that are found for it. -/
theorem labels_eq (h : Sectioned subject lead labelled entries) (hsplit : entries = mid ++ later)
    {index : Nat} {draft : ClassDraft}
    (hd : (Scan.after (lead ++ (labelled ++ mid))).classes[index]? = some draft) :
    draft.labels = Finding.ofClass Finding.label? index (labelled.flatMap Event.findings) := by
  have hclass : ∀ draft, .classBody draft ∉ (labelled ++ mid).flatMap Event.findings := by
    intro draft hmem
    obtain ⟨event, he, hfinding⟩ := List.mem_flatMap.mp hmem
    have hkind : Finding.Kind.classBody ∈ Finding.Kind.label :: entryKinds :=
      h.among_of_mem (by simpa [hsplit, ← or_assoc] using Or.inl (List.mem_append.mp he)) _ hfinding
    exact absurd hkind (by decide)
  have hnone : ∀ draft ∈ (Scan.after lead).classes, draft.labels = [] := by
    refine Scan.labels_recordAll (by simp [Scan.empty]) (fun index offset visibility hl => ?_)
      fun draft hd => ?_
    · obtain ⟨event, he, hfinding⟩ := List.mem_flatMap.mp hl
      exact absurd (show Finding.Kind.label ∈ frontKinds from h.among_lead event he _ hfinding)
        (by decide)
    · obtain ⟨event, he, hfinding⟩ := List.mem_flatMap.mp hd
      exact labels_of_classBody h.run (List.mem_append_left _ he) hfinding
  have hentries : Finding.ofClass Finding.label? index (mid.flatMap Event.findings) = [] := by
    refine List.eq_nil_iff_forall_not_mem.mpr fun label hl => ?_
    obtain ⟨event, he, hfinding⟩ := List.mem_flatMap.mp (Finding.mem_ofClass_label.mp hl)
    have hkind : Finding.Kind.label ∈ entryKinds :=
      h.among_entries event (by simp [hsplit, he]) _ hfinding
    exact absurd hkind (by decide)
  have hget := Scan.getElem?_labels_recordAll hclass (Scan.after lead) index
  rw [← Scan.after_append, List.getElem?_map, hd, List.getElem?_map] at hget
  obtain ⟨own, hown, heq⟩ := Option.map_eq_some_iff.mp hget.symm
  obtain ⟨old, hold, rfl⟩ := Option.map_eq_some_iff.mp hown
  rw [← heq, hnone old (List.mem_of_getElem? hold), List.nil_append, List.flatMap_append,
    Finding.ofClass_append, hentries, List.append_nil]

/-- The events of the labels, each with what its rule was told before it. -/
theorem told_label (h : Sectioned subject lead labelled entries) {event : Event}
    (he : event ∈ labelled) : ∃ before, findLabel subject (Scan.after before) event.found =
      .ok event.findings ∧ (Scan.after before).Framed ∧
        (Scan.after before).frame = (Scan.after lead).frame := by
  obtain ⟨mid, later, rfl⟩ := List.append_of_mem he
  have hsplit : lead ++ (mid ++ event :: later ++ entries) =
      (lead ++ mid) ++ event :: (later ++ entries) := by simp
  have htail : mid ++ event :: later ++ entries = mid ++ event :: (later ++ entries) := by simp
  have happly := h.run.told _ _ _ hsplit
  rw [(h.label_of_mem he).1] at happly
  exact ⟨lead ++ mid, happly, framed_of_run h.run hsplit, h.frame_eq htail⟩

theorem findings_of_label (h : Sectioned subject lead labelled entries) {event : Event}
    (he : event ∈ labelled) : event.findings = [] ∨
      ∃ index visibility, event.findings = [.label index event.found.start visibility] := by
  obtain ⟨before, happly, -⟩ := h.told_label he
  rw [← Except.ok.inj (findLabel_eq.symm.trans happly)]
  split
  · exact .inl rfl
  · cases (Scan.after before).classAt? subject event.found.start with
    | none => exact .inl rfl
    | some owner => exact .inr ⟨_, _, rfl⟩

theorem map_found (h : Sectioned subject lead labelled entries) :
    labelled.map Event.found = accessPattern.findAll subject.masked := by
  have hmap := congrArg (List.map Prod.snd) h.sites
  rwa [List.map_map, List.map_map, show Prod.snd ∘ Prod.mk labelRule = id from rfl,
    List.map_id] at hmap

/-- The labels of a class are in the order of their offsets. -/
theorem pairwise_labels (h : Sectioned subject lead labelled entries) (index : Nat) :
    (Finding.ofClass Finding.label? index (labelled.flatMap Event.findings)).Pairwise
      fun a b => a.1 < b.1 := by
  have hstarts := accessPattern.pairwise_findAll subject.masked
  rw [← h.map_found, List.pairwise_map] at hstarts
  rw [Finding.ofClass, List.pairwise_map]
  refine List.Pairwise.filter _ (List.pairwise_filterMap.mpr (List.pairwise_flatMap.mpr ⟨?_, ?_⟩))
  · intro event he
    rcases h.findings_of_label he with heq | ⟨index, visibility, heq⟩ <;> simp [heq]
  · refine hstarts.imp_of_mem fun {a b} ha hb hlt => ?_
    rcases h.findings_of_label ha with heq | ⟨_, _, heq⟩ <;>
      rcases h.findings_of_label hb with heq' | ⟨_, _, heq'⟩ <;>
      simp [heq, heq', Finding.label?, hlt]

/-- The labels of a class are those of the text that its brace is the innermost one around. -/
theorem mem_labels_iff (h : Sectioned subject lead labelled entries) {index opening : Nat}
    (hblock : (Scan.after lead).blockAt? opening = some (.classBody index)) {offset : Nat}
    {visibility : Visibility} :
    (offset, visibility) ∈
        Finding.ofClass Finding.label? index (labelled.flatMap Event.findings) ↔
      LabelIn subject opening offset visibility := by
  have hframed : (Scan.after lead).Framed := framed_of_run h.run rfl
  have hevent : ∀ event ∈ labelled, (.label index offset visibility ∈ event.findings ↔
      event.found.start = offset ∧ Text.charAt? subject.masked event.found.stop ≠ some ':' ∧
        visibility = accessOf (event.found.text .kind) ∧
        subject.source.braces.enclosingOpen offset = some opening) := by
    intro event he
    obtain ⟨before, happly, hbefore, hframe⟩ := h.told_label he
    rw [label_mem_iff happly hbefore]
    have hopening : ∀ other, (Scan.after before).blockAt? other = some (.classBody index) ↔
        other = opening := by
      intro other
      rw [Scan.blockAt?_of_frame hframe]
      refine ⟨fun hother => ?_, fun heq => heq ▸ hblock⟩
      obtain ⟨draft, hdraft, rfl⟩ := hframed.exists_draft hblock
      obtain ⟨draft', hdraft', rfl⟩ := hframed.exists_draft hother
      rw [Option.some.inj (hdraft'.symm.trans hdraft)]
    simp [hopening]
  rw [Finding.mem_ofClass_label, List.mem_flatMap, LabelIn, labelAt_iff, ← h.map_found]
  constructor
  · rintro ⟨event, he, hlabel⟩
    obtain ⟨hstart, hcolon, hvisibility, henclosing⟩ := (hevent event he).mp hlabel
    exact ⟨⟨event.found, List.mem_map_of_mem he, hstart, hcolon, hvisibility⟩, henclosing⟩
  · rintro ⟨⟨found, hfound, hstart, hcolon, hvisibility⟩, henclosing⟩
    obtain ⟨event, he, rfl⟩ := List.mem_map.mp hfound
    exact ⟨event, he, (hevent event he).mpr ⟨hstart, hcolon, hvisibility, henclosing⟩⟩

end Sectioned

/-! ## Members -/

/-- What is visible of a class where no label says otherwise. -/
def standardVisibility : ClassKind → Visibility
  | .struct | .union => .publicMember
  | _ => .privateMember

/-- The visibility of the section of a body that an offset lies in: that of the last label directly
in the body that starts in front of the offset, or the standard one where there is none. -/
def InSection (subject : Subject) (opening : Nat) (standard : Visibility) (offset : Nat)
    (visibility : Visibility) : Prop :=
  (∃ start, LabelIn subject opening start visibility ∧ start < offset ∧
    ∀ other visibility', LabelIn subject opening other visibility' → other < offset →
      other ≤ start) ∨
  (visibility = standard ∧ ∀ start visibility', LabelIn subject opening start visibility' →
    offset ≤ start)

/-- The members that an event tells of ask the class around its match for their visibility. -/
structure AsksClass (subject : Subject) (scan : Scan) (start : Nat) (findings : List Finding) :
    Prop where
  methods : ∀ index entry, .method index entry ∈ findings → ∃ draft,
    scan.classAt? subject start = some (index, draft) ∧
      (entry.isExported = true ↔ draft.visibilityAt start = .publicMember)
  properties : ∀ index entry, .property index entry ∈ findings → ∃ draft,
    scan.classAt? subject start = some (index, draft) ∧
      entry.visibility = draft.visibilityAt start

theorem asksClass_of_among {kinds : List Finding.Kind} {findings : List Finding} {start : Nat}
    (h : Finding.Among kinds findings) (hm : .method ∉ kinds) (hp : .property ∉ kinds) :
    AsksClass subject scan start findings :=
  ⟨fun _ _ hf => absurd (h _ hf) hm, fun _ _ hf => absurd (h _ hf) hp⟩

theorem findField_asksClass :
    Allows (findField subject scan found) (AsksClass subject scan found.start) := by
  rw [findField]
  split
  · next hclass =>
    refine (allows_true _).bind fun starts _ => ?_
    split
    · exact .ok (asksClass_of_among Finding.among_nil List.not_mem_nil List.not_mem_nil)
    · refine (allows_true _).bind fun typeText _ => (allows_true _).bind fun fields _ => .ok ?_
      refine ⟨fun index entry hf => ?_, fun index entry hf => ?_⟩
      · obtain ⟨field, -, heq⟩ := List.mem_map.mp hf
        cases heq
      · obtain ⟨field, -, heq⟩ := List.mem_map.mp hf
        cases heq
        exact ⟨_, hclass, rfl⟩
  · exact .ok (asksClass_of_among Finding.among_nil List.not_mem_nil List.not_mem_nil)

/-- A method that is recorded for the class around a match. -/
theorem asksClass_entered {entry : FunctionEntry} {ending : Ending} {warnings : List Finding}
    (hwarnings : Finding.Among [.warning] warnings)
    (h : ∀ owner draft, scan.classAt? subject found.start = some (owner, draft) →
      (entry.isExported = true ↔ draft.visibilityAt found.start = .publicMember)) :
    AsksClass subject scan found.start (warnings ++
      match scan.classAt? subject found.start, ending with
        | some (index, _), .pure _ => [.abstractClass index, .method index entry]
        | some (index, _), _ => [.method index entry]
        | none, _ => [.function entry]) := by
  have hwarning : ∀ finding ∈ warnings, finding.kind = .warning := fun finding hf =>
    List.mem_singleton.mp (hwarnings finding hf)
  refine ⟨fun index entry' hf => ?_, fun index entry' hf => ?_⟩
  · rcases List.mem_append.mp hf with hf | hf
    · cases hwarning _ hf
    · cases hclass : scan.classAt? subject found.start with
      | none => simp [hclass] at hf
      | some owner =>
        obtain ⟨index', draft⟩ := owner
        have hentry : index = index' ∧ entry' = entry := by
          rw [hclass] at hf
          cases ending <;> simpa using hf
        obtain ⟨rfl, rfl⟩ := hentry
        exact ⟨draft, rfl, h index draft hclass⟩
  · rcases List.mem_append.mp hf with hf | hf
    · cases hwarning _ hf
    · cases hclass : scan.classAt? subject found.start with
      | none => simp [hclass] at hf
      | some owner =>
        rw [hclass] at hf
        cases ending <;> simp at hf

theorem functionFindings_asksClass {head : Head} :
    Allows (functionFindings subject scan found head) (AsksClass subject scan found.start) := by
  rw [functionFindings]
  refine (allows_true _).bind fun parametersText _ => ?_
  dsimp only
  split
  · refine (allows_true _).some.bind fun body? hbody => .ok ?_
    obtain ⟨body, rfl, -⟩ := hbody
    refine asksClass_entered (Finding.among_checkTerminated (by simp) _ _ _ _)
      fun owner draft hclass => ?_
    rw [hclass]
    exact beq_iff_eq
  · refine .ok (asksClass_entered Finding.among_nil fun owner draft hclass => ?_)
    rw [hclass]
    exact beq_iff_eq

theorem findFunction_asksClass :
    Allows (findFunction subject scan found) (AsksClass subject scan found.start) := by
  have hnil : AsksClass subject scan found.start [] :=
    asksClass_of_among Finding.among_nil List.not_mem_nil List.not_mem_nil
  rw [findFunction]
  split
  · refine (allows_true _).bind fun starts _ => ?_
    split
    · exact .ok hnil
    · refine (allows_true _).bind fun declared _ => ?_
      split
      · exact .ok hnil
      · dsimp only
        split
        · refine (allows_true _).bind fun trailer? _ => ?_
          split
          · exact .ok hnil
          · refine (allows_true _).bind fun head? _ => ?_
            split
            · exact .ok hnil
            · split
              · exact functionFindings_asksClass
              · exact .ok hnil
        · exact .ok hnil
  · exact .ok hnil

theorem asksClass_of_mem_drop : ∀ rule ∈ language.rules.drop 5, ∀ subject scan found,
    Allows (rule.apply subject scan found) (AsksClass subject scan found.start) := by
  intro rule hr subject scan found
  simp only [language, List.drop, List.mem_cons, List.not_mem_nil, or_false] at hr
  rcases hr with rfl | rfl
  · exact findFunction_asksClass
  · exact findField_asksClass

/-- What a class shows where no label says otherwise goes by its kind. -/
theorem findClass_standard : Allows (findClass subject scan found) fun findings =>
    ∀ draft, .classBody draft ∈ findings →
      draft.defaultVisibility = standardVisibility draft.entry.kind := by
  rw [findClass]
  split
  · refine (allows_true _).bind fun start _ => (allows_true _).bind fun starts _ => ?_
    split
    · split
      · rw [classFindings]
        refine (allows_true _).bind fun bases _ => (allows_true _).bind fun body _ => .ok ?_
        intro draft hmem
        rcases List.mem_append.mp hmem with hmem | hmem
        · cases List.mem_singleton.mp hmem
          rcases kindOf_cases (found.text .kind) with hk | hk | hk <;>
            simp [hk, standardVisibility]
        · have hwarning : Finding.Kind.classBody ∈ [Finding.Kind.warning] :=
            Finding.among_checkTerminated (by simp) _ _ _ _ _ hmem
          exact absurd hwarning (by decide)
      · exact .ok (by simp)
    · exact .ok (by simp)
  · exact .ok (by simp)

theorem standard_of_mem_classes (h : language.Run subject events) {draft : ClassDraft}
    (hd : draft ∈ (Scan.after events).classes) :
    draft.defaultVisibility = standardVisibility draft.entry.kind := by
  have hgiven : draft.given ∈ (Scan.after events).classes.map ClassDraft.given :=
    List.mem_map_of_mem hd
  rw [Scan.after, Scan.given_recordAll] at hgiven
  obtain ⟨first, hfirst, heq⟩ := List.mem_map.mp hgiven
  obtain ⟨event, he, hfinding⟩ := List.mem_flatMap.mp (mem_of_draft? hfirst)
  obtain ⟨outline, declared, members, rfl, hstaged⟩ := exists_staged h
  obtain ⟨before, later, hsplit⟩ := List.append_of_mem he
  have hsite : event.site ∈ (classPattern.findAll subject.masked).map (classRule, ·) :=
    hstaged.sites ▸ List.mem_map_of_mem (hstaged.site_of_class he hfinding)
  obtain ⟨found, -, hrule⟩ := List.mem_map.mp hsite
  have happly := h.told before event later hsplit
  rw [← (Prod.mk.inj hrule).1] at happly
  show draft.given.defaultVisibility = standardVisibility draft.given.entry.kind
  rw [← heq]
  exact findClass_standard _ happly first hfinding

/-- The class that a member asks tells it the visibility of the section that it stands in. -/
theorem Sectioned.inSection {lead labelled entries mid later : List Event}
    (h : Sectioned subject lead labelled entries) (hsplit : entries = mid ++ later)
    {offset index : Nat} {draft : ClassDraft}
    (hclass : (Scan.after (lead ++ (labelled ++ mid))).classAt? subject offset =
      some (index, draft)) :
    subject.source.braces.enclosingOpen offset = some draft.opening ∧
      InSection subject draft.opening draft.defaultVisibility offset
        (draft.visibilityAt offset) := by
  have hall : lead ++ (labelled ++ entries) = lead ++ (labelled ++ mid) ++ later := by
    simp [hsplit]
  obtain ⟨opening, hopening, hblock⟩ := Scan.enclosing_of_classAt? hclass
  obtain ⟨draft', hdraft', rfl⟩ := (framed_of_run h.run hall).exists_draft hblock
  have hdraft := Scan.getElem?_of_classAt? hclass
  obtain rfl := Option.some.inj (hdraft'.symm.trans hdraft)
  have htail : labelled ++ entries = (labelled ++ mid) ++ later := by simp [hsplit]
  rw [Scan.blockAt?_of_frame (h.frame_eq htail)] at hblock
  refine ⟨hopening, ?_⟩
  have hlabels := h.labels_eq hsplit hdraft
  have hsorted := h.pairwise_labels index
  have hmem : ∀ {offset visibility}, (offset, visibility) ∈ draft'.labels ↔
      LabelIn subject draft'.opening offset visibility := by
    rw [hlabels]
    exact h.mem_labels_iff hblock
  rw [← hlabels] at hsorted
  rcases draft'.visibilityAt_cases hsorted offset with ⟨start, hstart, hlt, hlast⟩ | ⟨heq, hnone⟩
  · refine .inl ⟨start, hmem.mp hstart, hlt, fun other visibility hother => ?_⟩
    exact hlast (other, visibility) (hmem.mpr hother)
  · exact .inr ⟨heq, fun start visibility hstart => hnone (start, visibility) (hmem.mpr hstart)⟩

/-- Members are told of when all labels are known, by the class around their match. -/
theorem Sectioned.told_member {lead labelled entries : List Event}
    (h : Sectioned subject lead labelled entries) {event : Event}
    (he : event ∈ lead ++ (labelled ++ entries)) {finding : Finding} (hf : finding ∈ event.findings)
    (hkind : finding.kind ∈ [Finding.Kind.method, .property]) {index : Nat} {final : ClassDraft}
    (hd : (Scan.after (lead ++ (labelled ++ entries))).classes[index]? = some final) :
    ∃ scan, AsksClass subject scan event.found.start event.findings ∧
      ∀ draft, scan.classAt? subject event.found.start = some (index, draft) →
        subject.source.braces.enclosingOpen event.found.start = some final.opening ∧
          InSection subject final.opening (standardVisibility final.entry.kind) event.found.start
            (draft.visibilityAt event.found.start) := by
  have hentry : event ∈ entries := by
    rcases List.mem_append.mp he with he | he
    · have hlead := h.among_lead event he finding hf
      exact absurd hkind (by revert hlead; cases finding.kind <;> decide)
    · refine (List.mem_append.mp he).resolve_left fun he => ?_
      rcases h.findings_of_label he with hnil | ⟨_, _, hlabel⟩
      · simp [hnil] at hf
      · rw [hlabel, List.mem_singleton] at hf
        subst hf
        exact absurd (show Finding.Kind.label ∈ _ from hkind) (by decide)
  obtain ⟨mid, later, rfl⟩ := List.append_of_mem hentry
  have hall : lead ++ (labelled ++ (mid ++ event :: later)) =
      lead ++ (labelled ++ mid) ++ event :: later := by simp
  refine ⟨Scan.after (lead ++ (labelled ++ mid)),
    asksClass_of_mem_drop _ (h.entries event hentry) _ _ _ _ (h.run.told _ _ _ hall),
    fun draft hclass => ?_⟩
  obtain ⟨hopening, hsection⟩ := h.inSection rfl hclass
  obtain ⟨final', hfinal', hgiven⟩ := Scan.getElem?_given_recordAll
    (Scan.getElem?_of_classAt? hclass) ((event :: later).flatMap Event.findings)
  rw [← Scan.after_append, ← hall, hd] at hfinal'
  obtain rfl := Option.some.inj hfinal'
  have hsame : final.opening = draft.opening ∧
      final.defaultVisibility = draft.defaultVisibility := by
    show final.given.opening = draft.given.opening ∧
      final.given.defaultVisibility = draft.given.defaultVisibility
    rw [hgiven]
    exact ⟨rfl, rfl⟩
  rw [← hsame.1, ← hsame.2, standard_of_mem_classes h.run (List.mem_of_getElem? hd)] at hsection
  exact ⟨hsame.1 ▸ hopening, hsection⟩

/-- Members have the visibility of their section.  Every member of a class comes from a match whose
innermost brace is that of the class.  A label counts if that brace is also the innermost one
around the label, and the label starts in front of the match, which need not start with the
declaration itself.  The last such label is the visibility of a property and says whether a
method is exported; where there is none, structs and unions show their members, and classes do
not. -/
theorem members_in_sections (text : List Char) :
    ∃ scan events, language.scan (language.subject text) = .ok scan ∧
      language.Run (language.subject text) events ∧ scan = Scan.after events ∧
      (Registry.cpp.parse text).classes = scan.classes.map Scan.finishClass ∧
      ∀ index draft, scan.classes[index]? = some draft →
        draft.entry.methods =
          Finding.ofClass Finding.method? index (events.flatMap Event.findings) ∧
        draft.entry.properties =
          Finding.ofClass Finding.property? index (events.flatMap Event.findings) ∧
        ∀ event ∈ events,
          (∀ entry, .method index entry ∈ event.findings →
            (language.subject text).source.braces.enclosingOpen event.found.start =
              some draft.opening ∧
            ∃ visibility, InSection (language.subject text) draft.opening
                (standardVisibility draft.entry.kind) event.found.start visibility ∧
              (entry.isExported = true ↔ visibility = .publicMember)) ∧
          ∀ entry, .property index entry ∈ event.findings →
            (language.subject text).source.braces.enclosingOpen event.found.start =
              some draft.opening ∧
            InSection (language.subject text) draft.opening
              (standardVisibility draft.entry.kind) event.found.start entry.visibility := by
  obtain ⟨scan, hscan, -⟩ := Language.scan_yields (ensures_of_mem_rules text)
  obtain ⟨events, hrun, rfl⟩ := Language.exists_run hscan
  obtain ⟨summary, hsummary, hclasses⟩ := Language.extract_classes hscan
  refine ⟨_, events, hscan, hrun, rfl, ?_, fun index draft hd => ?_⟩
  · rw [show Registry.cpp.parse text = summary from Extractor.parse_eq hsummary, hclasses]
  obtain ⟨hmethods, hproperties⟩ := hrun.members_eq (tellsOrderly text) hd
  refine ⟨hmethods, hproperties, fun event he => ⟨fun entry hentry => ?_, fun entry hentry => ?_⟩⟩
  all_goals
    obtain ⟨lead, labelled, entries, rfl, hsectioned⟩ := exists_sectioned hrun
    obtain ⟨known, hasks, htold⟩ := hsectioned.told_member he hentry (by simp [Finding.kind]) hd
  · obtain ⟨owner, hclass, hexported⟩ := hasks.methods index entry hentry
    obtain ⟨hopening, hsection⟩ := htold owner hclass
    exact ⟨hopening, _, hsection, hexported⟩
  · obtain ⟨owner, hclass, hvisibility⟩ := hasks.properties index entry hentry
    obtain ⟨hopening, hsection⟩ := htold owner hclass
    exact ⟨hopening, hvisibility ▸ hsection⟩

end Cpp
end Outline
