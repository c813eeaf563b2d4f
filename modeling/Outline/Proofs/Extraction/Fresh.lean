import Outline.Proofs.Extraction.Cpp.Rule
import Outline.Proofs.Extraction.Java.Rule
import Outline.Proofs.Extraction.Recorded
import Outline.Proofs.Pattern.Found

/-!
# What a class is recorded with

A class is recorded without members, in front of its body, and with the answer to whether its
declaration starts inside of a class that is known by then.  All classes of a language are found
by one rule, one behind the other, so no class that is found later holds the start.
-/

namespace Outline

/-- A class as it is recorded for a declaration that starts at an offset. -/
structure ClassDraft.Fresh (scan : Scan) (start : Nat) (draft : ClassDraft) : Prop where
  nested : draft.nested = scan.inAnyClass start
  behind : start < draft.opening
  methods : draft.entry.methods = []
  properties : draft.entry.properties = []

/-- What a rule may tell of a match that starts at an offset: classes as they are recorded, and
members of classes that are there. -/
structure Orderly (scan : Scan) (start : Nat) (findings : List Finding) : Prop where
  lands : Finding.Lands scan.classes.length findings
  fresh : ∀ draft, .classBody draft ∈ findings → draft.Fresh scan start

def Rule.TellsOrderly (rule : Rule) (subject : Subject) : Prop :=
  ∀ scan found, rule.pattern.FoundIn (rule.text subject.source) found →
    Allows (rule.apply subject scan found) (Orderly scan found.start)

variable {subject : Subject} {scan : Scan} {found : Match} {start : Nat}

theorem Orderly.of_among {kinds : List Finding.Kind} {findings : List Finding}
    (h : Finding.Among kinds findings) (hc : .classBody ∉ kinds) (hm : .method ∉ kinds)
    (hp : .property ∉ kinds) : Orderly scan start findings where
  lands := Finding.lands_of_among h hm hp _
  fresh _ hd := absurd (h _ hd) hc

theorem Orderly.nil : Orderly scan start [] := ⟨trivial, fun _ h => absurd h List.not_mem_nil⟩

/-- Methods of the class that the match lies in. -/
theorem Orderly.of_contributes {phase : Phase} {kinds : List Finding.Kind} {findings : List Finding}
    (h : Contributes phase subject scan start findings) (hk : Finding.Among kinds findings)
    (hc : .classBody ∉ kinds) (hp : .property ∉ kinds) : Orderly scan start findings where
  lands := Finding.lands_of_forall fun finding hf index ho => by
    have hallowed := h.allowed finding hf
    have hkind := hk finding hf
    cases finding with
    | method =>
      cases ho
      obtain ⟨-, draft, hclass⟩ := hallowed
      exact (List.getElem?_eq_some_iff.mp (Scan.getElem?_of_classAt? hclass)).1
    | property => exact absurd hkind hp
    | package | imported | block | classBody | label | abstractClass | function | error | warning =>
      cases ho
  fresh _ hd := absurd (hk _ hd) hc

/-- Properties of the class that the match lies in. -/
theorem Orderly.properties {α : Type} {index : Nat} {draft : ClassDraft}
    (h : scan.classAt? subject start = some (index, draft)) (fields : List α)
    (entryOf : α → PropertyEntry) :
    Orderly scan start (fields.map fun a => .property index (entryOf a)) where
  lands := Finding.lands_of_forall fun finding hf owner ho => by
    obtain ⟨a, -, rfl⟩ := List.mem_map.mp hf
    cases ho
    exact (List.getElem?_eq_some_iff.mp (Scan.getElem?_of_classAt? h)).1
  fresh _ hd := by
    obtain ⟨a, -, heq⟩ := List.mem_map.mp hd
    cases heq

/-- A class with fields of its own. -/
theorem Orderly.classBody {draft : ClassDraft} {body : Body} {name : List Char} {offset : Nat}
    {fields : List Finding} (hd : draft.Fresh scan start)
    (hf : ∀ finding ∈ fields, ∃ entry, finding = .property scan.classes.length entry) :
    Orderly scan start
      ([.classBody draft] ++ subject.checkTerminated body name offset ++ fields) := by
  have hwarnings : Finding.Among [.warning] (subject.checkTerminated body name offset) :=
    Finding.among_checkTerminated (by simp) _ _ _ _
  refine ⟨?_, fun draft' hmem => ?_⟩
  · rw [List.append_assoc]
    show Finding.Lands _ (.classBody draft :: (subject.checkTerminated body name offset ++ fields))
    refine ⟨fun index ho => (by cases ho), Finding.lands_append.mpr
      ⟨Finding.lands_of_among hwarnings (by decide) (by decide) _,
        Finding.lands_of_forall fun finding hmem index ho => ?_⟩⟩
    obtain ⟨entry, rfl⟩ := hf finding hmem
    cases ho
    exact Nat.lt_add_right _ (Nat.lt_succ_self _)
  · rcases List.mem_append.mp hmem with hmem | hmem
    · rcases List.mem_append.mp hmem with hmem | hmem
      · cases List.mem_singleton.mp hmem
        exact hd
      · exact absurd (show Finding.Kind.classBody ∈ _ from hwarnings _ hmem) (by decide)
    · obtain ⟨entry, heq⟩ := hf _ hmem
      cases heq

/-! ## Java -/

namespace Java

theorem typeFindings_orderly {declaration name : Capture} {opening : Nat}
    (hlt : found.start < opening) :
    Allows (typeFindings subject scan found declaration name opening)
      (Orderly scan found.start) := by
  rw [typeFindings]
  refine (allows_true _).bind fun header _ => (allows_true _).bind fun supertypes _ => ?_
  refine (allows_true _).bind fun body _ => ?_
  refine (recordComponents_properties _ _).bind fun components hcomponents => ?_
  dsimp only
  split
  · refine (enumConstants_properties _ _ _).bind fun constants hconstants => .ok ?_
    rw [List.append_assoc _ components]
    refine .classBody ⟨rfl, hlt, rfl, rfl⟩ fun finding hf => ?_
    rcases List.mem_append.mp hf with hf | hf
    · exact hcomponents finding hf
    · exact hconstants finding hf
  · refine .ok ?_
    rw [List.append_nil]
    exact .classBody ⟨rfl, hlt, rfl, rfl⟩ hcomponents

theorem findType_orderly (hf : typePattern.FoundIn subject.masked found) :
    Allows (findType subject scan found) (Orderly scan found.start) := by
  rw [findType]
  split
  · next declaration name hdeclaration hname =>
    refine (allows_true _).bind fun starts _ => ?_
    split
    · split
      · next opening hopening =>
        obtain ⟨hat, hstart, -⟩ := hf.part_at hname
        obtain ⟨hlt, -⟩ := hf.char_of_partAvoids ' ' (by decide) hname
        have hle := (Statement.charAt?_bodyOpen? hat.isBoundary_stop hopening).2
        exact typeFindings_orderly (by omega)
      · exact .ok .nil
    · exact .ok .nil
  · exact .ok .nil

theorem findMethod_orderly :
    Allows (findMethod subject scan found) (Orderly scan found.start) := fun findings hok =>
  .of_contributes (findMethod_contributes findings hok) (findMethod_among findings hok) (by decide)
    (by decide)

theorem findField_orderly : Allows (findField subject scan found) (Orderly scan found.start) := by
  rw [findField]
  split
  · next hclass =>
    refine (allows_true _).bind fun starts _ => ?_
    split
    · exact .ok .nil
    · refine (allows_true _).bind fun typeText _ => (allows_true _).bind fun fields _ => .ok ?_
      exact .properties hclass _ _
  · exact .ok .nil

theorem tellsOrderly (text : List Char) :
    ∀ rule ∈ language.rules, rule.TellsOrderly (language.subject text) := by
  intro rule hr scan found hf
  simp only [language, List.mem_cons, List.not_mem_nil, or_false] at hr
  rcases hr with rfl | rfl | rfl | rfl | rfl
  · exact findPackage_among.mono fun _ h => .of_among h (by decide) (by decide) (by decide)
  · exact (@findImport_among _ scan _).mono fun _ h =>
      .of_among h (by decide) (by decide) (by decide)
  · exact findType_orderly hf
  · exact findMethod_orderly
  · exact findField_orderly

end Java

/-! ## C++ -/

namespace Cpp

theorem classFindings_orderly {declaration name : Capture} {opening basesStart : Nat}
    (hlt : found.start < opening) :
    Allows (classFindings subject scan found declaration name opening basesStart)
      (Orderly scan found.start) := by
  rw [classFindings]
  refine (allows_true _).bind fun bases _ => (allows_true _).bind fun body _ => .ok ?_
  rw [← List.append_nil (_ ++ _)]
  exact .classBody ⟨rfl, hlt, rfl, rfl⟩ (by simp)

theorem findClass_orderly (hf : classPattern.FoundIn subject.masked found) :
    Allows (findClass subject scan found) (Orderly scan found.start) := by
  rw [findClass]
  split
  · next declaration name tail hdeclaration hname htail =>
    refine (allows_true _).bind fun start _ => (allows_true _).bind fun starts _ => ?_
    split
    · split
      · next opening basesStart hbody =>
        obtain ⟨hat, -, -⟩ := hf.part_at htail
        obtain ⟨-, hstart, -⟩ := hf.part_at hname
        obtain ⟨hbrace, -, -, hle⟩ := charAt?_classBody? hat hbody
        obtain ⟨-, c, hc, hne⟩ := hf.char_of_partAvoids '\x7b' (by decide) hname
        have hbefore := hf.start_le_of_startsBefore (by decide) hname htail
        have hdiffer : name.start ≠ opening := by
          rintro rfl
          exact hne (Option.some.inj (hc.symm.trans hbrace))
        exact classFindings_orderly (by omega)
      · exact .ok .nil
    · exact .ok .nil
  · exact .ok .nil

theorem findFunction_orderly :
    Allows (findFunction subject scan found) (Orderly scan found.start) := fun findings hok =>
  .of_contributes (findFunction_contributes findings hok) (findFunction_among findings hok)
    (by decide) (by decide)

theorem findField_orderly : Allows (findField subject scan found) (Orderly scan found.start) := by
  rw [findField]
  split
  · next hclass =>
    refine (allows_true _).bind fun starts _ => ?_
    split
    · exact .ok .nil
    · refine (allows_true _).bind fun typeText _ => (allows_true _).bind fun fields _ => .ok ?_
      exact .properties hclass _ _
  · exact .ok .nil

theorem tellsOrderly (text : List Char) :
    ∀ rule ∈ language.rules, rule.TellsOrderly (language.subject text) := by
  intro rule hr scan found hf
  simp only [language, List.mem_cons, List.not_mem_nil, or_false] at hr
  rcases hr with rfl | rfl | rfl | rfl | rfl | rfl | rfl
  · exact (@findInclude_among _ scan _).mono fun _ h =>
      .of_among h (by decide) (by decide) (by decide)
  · exact (@findNamespace_among _ scan _).mono fun _ h =>
      .of_among h (by decide) (by decide) (by decide)
  · exact (@findLinkage_among (language.subject text) scan _).mono fun _ h =>
      .of_among h (by decide) (by decide) (by decide)
  · exact findClass_orderly hf
  · exact findLabel_among.mono fun _ h => .of_among h (by decide) (by decide) (by decide)
  · exact findFunction_orderly
  · exact findField_orderly

end Cpp

/-! ## The classes of a run -/

/-- A language finds its classes with one rule. -/
def Language.HasClassRule (language : Language) : Prop :=
  ∃ front rule back, language.rules = front ++ rule :: back ∧
    ∀ other ∈ front ++ back, ∃ kinds, other.Finds kinds ∧ .classBody ∉ kinds

theorem Java.hasClassRule : language.HasClassRule := by
  refine ⟨language.rules.take 2, ⟨.masked, typePattern, findType⟩, language.rules.drop 3, rfl, ?_⟩
  intro rule hr
  simp only [language, List.take, List.drop, List.cons_append, List.nil_append, List.mem_cons,
    List.not_mem_nil, or_false] at hr
  rcases hr with rfl | rfl | rfl | rfl
  · exact ⟨_, fun _ _ _ => findPackage_among, by decide⟩
  · exact ⟨_, fun _ scan _ => @findImport_among _ scan _, by decide⟩
  · exact ⟨_, fun _ _ _ => findMethod_among, by decide⟩
  · exact ⟨_, fun _ _ _ => findField_among, by decide⟩

theorem Cpp.hasClassRule : language.HasClassRule := by
  refine ⟨language.rules.take 3, ⟨.masked, classPattern, findClass⟩, language.rules.drop 4, rfl, ?_⟩
  intro rule hr
  simp only [language, List.take, List.drop, List.cons_append, List.nil_append, List.mem_cons,
    List.not_mem_nil, or_false] at hr
  rcases hr with rfl | rfl | rfl | rfl | rfl | rfl
  · exact ⟨_, fun _ scan _ => @findInclude_among _ scan _, by decide⟩
  · exact ⟨_, fun _ scan _ => @findNamespace_among _ scan _, by decide⟩
  · exact ⟨_, fun subject scan _ => @findLinkage_among subject scan _, by decide⟩
  · exact ⟨_, fun _ _ _ => findLabel_among, by decide⟩
  · exact ⟨_, fun _ _ _ => findFunction_among, by decide⟩
  · exact ⟨_, fun _ _ _ => findField_among, by decide⟩

theorem Scan.inAnyClass_recordAll (findings : List Finding) (scan : Scan) (offset : Nat) :
    (scan.recordAll findings).inAnyClass offset = (scan.inAnyClass offset ||
      (findings.filterMap Finding.draft?).any fun draft =>
        draft.opening ≤ offset && offset ≤ draft.close) := by
  have hgiven : ∀ drafts : List ClassDraft,
      (drafts.any fun draft => draft.opening ≤ offset && offset ≤ draft.close) =
        (drafts.map ClassDraft.given).any fun draft =>
          draft.opening ≤ offset && offset ≤ draft.close := by
    intro drafts
    rw [List.any_map]
    rfl
  rw [inAnyClass, hgiven, given_recordAll, List.any_append, ← hgiven, ← hgiven, inAnyClass]

namespace Language

variable {language : Language} {events : List Event}

namespace Run

theorem orderly (h : language.Run subject events)
    (ht : ∀ rule ∈ language.rules, rule.TellsOrderly subject) {before later : List Event}
    {event : Event} (hsplit : events = before ++ event :: later) :
    Orderly (Scan.after before) event.found.start event.findings := by
  have hsite : event.site ∈ language.sites subject := by
    rw [← h.sites, hsplit]
    exact List.mem_map_of_mem (by simp)
  obtain ⟨rule, hrule, hfound⟩ := List.mem_flatMap.mp hsite
  obtain ⟨found, hmem, heq⟩ := List.mem_map.mp hfound
  obtain ⟨rfl, rfl⟩ := Prod.mk.inj heq
  exact ht _ hrule _ _ (Pattern.foundIn_of_mem_findAll hmem) _ (h.told before event later hsplit)

/-- Every member is told of when its class has been. -/
theorem lands (h : language.Run subject events)
    (ht : ∀ rule ∈ language.rules, rule.TellsOrderly subject) :
    Finding.Lands 0 (events.flatMap Event.findings) :=
  lands_flatMap fun _ _ _ hsplit => (h.orderly ht hsplit).lands

theorem exists_fresh (h : language.Run subject events)
    (ht : ∀ rule ∈ language.rules, rule.TellsOrderly subject) {draft : ClassDraft}
    (hd : .classBody draft ∈ events.flatMap Event.findings) :
    ∃ scan start, draft.Fresh scan start := by
  obtain ⟨event, he, hd⟩ := List.mem_flatMap.mp hd
  obtain ⟨before, later, hsplit⟩ := List.append_of_mem he
  exact ⟨_, _, (h.orderly ht hsplit).fresh draft hd⟩

/-- The members of a class are those that its events tell of. -/
theorem members_eq (h : language.Run subject events)
    (ht : ∀ rule ∈ language.rules, rule.TellsOrderly subject) {index : Nat} {draft : ClassDraft}
    (hd : (Scan.after events).classes[index]? = some draft) :
    draft.entry.methods = Finding.ofClass Finding.method? index (events.flatMap Event.findings) ∧
      draft.entry.properties =
        Finding.ofClass Finding.property? index (events.flatMap Event.findings) := by
  refine ⟨Scan.collects_methods.members_eq (h.lands ht) (fun new hnew => ?_) hd,
    Scan.collects_properties.members_eq (h.lands ht) (fun new hnew => ?_) hd⟩
  · obtain ⟨scan, start, hfresh⟩ := h.exists_fresh ht hnew
    exact hfresh.methods
  · obtain ⟨scan, start, hfresh⟩ := h.exists_fresh ht hnew
    exact hfresh.properties

/-- Classes are found one behind the other. -/
theorem pairwise_classes (h : language.Run subject events) (hc : language.HasClassRule) :
    events.Pairwise fun first second => ∀ draft draft', .classBody draft ∈ first.findings →
      .classBody draft' ∈ second.findings → first.found.start ≤ second.found.start := by
  obtain ⟨front, rule, back, hrules, hother⟩ := hc
  have hfree : ∀ rules : List Rule, rules ⊆ front ++ back → ∀ site ∈ rules.flatMap fun rule =>
      (rule.pattern.findAll (rule.text subject.source)).map (rule, ·),
      ∃ kinds, site.1.Finds kinds ∧ Finding.Kind.classBody ∉ kinds := by
    intro rules hsub site hs
    obtain ⟨other, ho, hs⟩ := List.mem_flatMap.mp hs
    obtain ⟨found, -, rfl⟩ := List.mem_map.mp hs
    exact hother other (hsub ho)
  have hfront := hfree front (List.subset_append_left _ _)
  have hback := hfree back (List.subset_append_right _ _)
  have hsites : (language.sites subject).Pairwise fun s t =>
      (∃ kinds, s.1.Finds kinds ∧ Finding.Kind.classBody ∉ kinds) ∨
      (∃ kinds, t.1.Finds kinds ∧ Finding.Kind.classBody ∉ kinds) ∨ s.2.start ≤ t.2.start := by
    rw [Language.sites, hrules, List.flatMap_append, List.flatMap_cons]
    refine List.pairwise_append.mpr ⟨?_, List.pairwise_append.mpr ⟨?_, ?_, ?_⟩, ?_⟩
    · exact List.pairwise_of_forall_mem_list fun s hs _ _ => .inl (hfront s hs)
    · refine List.pairwise_map.mpr ((rule.pattern.pairwise_findAll _).imp fun hlt => ?_)
      exact .inr (.inr (Nat.le_of_lt hlt))
    · exact List.pairwise_of_forall_mem_list fun s hs _ _ => .inl (hback s hs)
    · exact fun _ _ t ht => .inr (.inl (hback t ht))
    · exact fun s hs _ _ => .inl (hfront s hs)
  rw [← h.sites, List.pairwise_map] at hsites
  -- Two matches that both tell of classes are matches of the one rule that does.
  refine hsites.imp_of_mem fun {first second} hfirst hsecond hor draft draft' hd hd' => ?_
  rcases hor with ⟨kinds, hfinds, hk⟩ | ⟨kinds, hfinds, hk⟩ | hle
  · exact absurd (h.told.among hfirst hfinds _ hd) hk
  · exact absurd (h.told.among hsecond hfinds _ hd') hk
  · exact hle

/-- What a class is recorded as is still so in the end: nested if its declaration starts inside of
some class. -/
theorem nested_eq (h : language.Run subject events)
    (ht : ∀ rule ∈ language.rules, rule.TellsOrderly subject) (hc : language.HasClassRule)
    {before later : List Event} {event : Event} (hsplit : events = before ++ event :: later)
    {draft : ClassDraft} (hd : .classBody draft ∈ event.findings) :
    draft.nested = (Scan.after events).inAnyClass event.found.start := by
  -- Classes from here on open behind the start, so they do not hold it.
  have hbehind : ∀ draft' ∈ ((event :: later).flatMap Event.findings).filterMap Finding.draft?,
      event.found.start < draft'.opening := by
    intro draft' hd'
    obtain ⟨event', he, hd'⟩ := List.mem_flatMap.mp (mem_of_draft? hd')
    have hle : event.found.start ≤ event'.found.start := by
      rcases List.mem_cons.mp he with rfl | he
      · exact Nat.le_refl _
      · have hpairwise := h.pairwise_classes hc
        rw [hsplit] at hpairwise
        exact (List.pairwise_cons.mp (List.pairwise_append.mp hpairwise).2.1).1 event' he
          draft draft' hd hd'
    obtain ⟨a, b, hab⟩ := List.append_of_mem he
    have hsplit' : events = (before ++ a) ++ event' :: b := by
      rw [hsplit, hab, List.append_assoc]
    exact Nat.lt_of_le_of_lt hle ((h.orderly ht hsplit').fresh draft' hd').behind
  rw [((h.orderly ht hsplit).fresh draft hd).nested, hsplit, Scan.after_append,
    Scan.inAnyClass_recordAll, Bool.or_eq_left_iff_imp.mpr]
  intro hany
  obtain ⟨draft', hd', hcovers⟩ := List.any_eq_true.mp hany
  have hlt := hbehind draft' hd'
  simp only [Bool.and_eq_true, decide_eq_true_eq] at hcovers
  omega

end Run
end Language
end Outline
