import Outline.Proofs.Extraction.Outcome
import Outline.Proofs.Extraction.Trace

/-!
# What one match contributes

The rules of a language come in two groups.  The first lay out the frame: which
braces open what, and where the bodies of the classes are.  The others fill it
with functions and members and leave it alone.  So what a rule of the second
group read off the frame when it recorded a function is still so in the end.
-/

namespace Outline

inductive Phase
  | framing
  | filling
  deriving DecidableEq, Repr

namespace Finding

/-- Where an entry goes: to the top level (`none`) or into the class with an index.
`next` is the index of the next class. -/
def place? (next : Nat) : Finding → Option (Option Nat)
  | .function _ => some none
  | .method index _ | .property index _ | .label index _ _ | .abstractClass index =>
    some (some index)
  | .classBody _ => some (some next)
  | _ => none

def opensClass : Finding → Bool
  | .classBody _ => true
  | _ => false

/-- Whether a finding changes the frame. -/
def frames : Finding → Bool
  | .block .. | .classBody _ => true
  | _ => false

/-- What a rule of a phase may tell about a match that starts at an offset. -/
def Allowed (phase : Phase) (subject : Subject) (scan : Scan) (start : Nat) : Finding → Prop
  | .function _ => phase = .filling ∧ scan.atTopLevel subject start = true
  | .method index _ =>
    phase = .filling ∧ ∃ draft, scan.classAt? subject start = some (index, draft)
  | .classBody draft => phase = .framing ∧ draft.entry.methods = []
  | .block _ opened => phase = .framing ∧ ∀ index, opened ≠ .classBody index
  | _ => True

end Finding

/-- What a rule tells about one match goes to one place, and is allowed there. -/
structure Contributes (phase : Phase) (subject : Subject) (scan : Scan) (start : Nat)
    (findings : List Finding) : Prop where
  allowed : ∀ finding ∈ findings, finding.Allowed phase subject scan start
  onePlace : ∃ place, ∀ finding ∈ findings, ∀ p,
    finding.place? scan.classes.length = some p → p = place
  oneClass : findings.countP Finding.opensClass ≤ 1

def Rule.Contributes (phase : Phase) (rule : Rule) (subject : Subject) : Prop :=
  ∀ scan found, Allows (rule.apply subject scan found)
    (Outline.Contributes phase subject scan found.start)

/-! ## The frame -/

namespace Scan

variable {s t scan : Scan}

/-- What the recorded braces open and where the bodies of the classes are. -/
def frame (scan : Scan) : List (Nat × Block) × List (Nat × Nat) :=
  (scan.blocks, scan.classes.map fun draft => (draft.opening, draft.close))

theorem map_modify {α β : Type} {f : α → α} {g : α → β} (h : ∀ a, g (f a) = g a) (index : Nat)
    (entries : List α) : (entries.modify index f).map g = entries.map g := by
  apply List.ext_getElem?
  intro i
  rw [List.getElem?_map, List.getElem?_modify, List.getElem?_map]
  cases entries[i]? with
  | none => rfl
  | some a =>
    show some (g _) = some (g a)
    split
    · rw [h]
    · rfl

theorem frame_record {finding : Finding} (h : finding.frames = false) :
    (scan.record finding).frame = scan.frame := by
  cases finding with
  | block | classBody => simp [Finding.frames] at h
  | package | imported | function | error | warning => rfl
  | label | abstractClass | method | property =>
    simp only [frame, record]
    rw [map_modify]
    intro draft
    rfl

theorem frame_recordAll {findings : List Finding}
    (h : ∀ finding ∈ findings, finding.frames = false) :
    (scan.recordAll findings).frame = scan.frame := by
  induction findings generalizing scan with
  | nil => rfl
  | cons finding findings ih =>
    rw [recordAll, List.foldl_cons, ← recordAll, ih fun f hf => h f (by simp [hf]),
      frame_record (h finding (by simp))]

theorem inAnyClass_of_frame (h : s.frame = t.frame) (offset : Nat) :
    s.inAnyClass offset = t.inAnyClass offset := by
  have hany : ∀ scan : Scan, scan.inAnyClass offset =
      scan.frame.2.any fun range => range.1 ≤ offset && offset ≤ range.2 := by
    intro scan
    rw [inAnyClass, frame, List.any_map]
    rfl
  rw [hany, hany, h]

theorem blockAt?_of_frame (h : s.frame = t.frame) (opening : Nat) :
    s.blockAt? opening = t.blockAt? opening := by
  have hblocks : s.blocks = t.blocks := congrArg Prod.fst h
  rw [blockAt?, blockAt?, hblocks]

theorem atTopLevel_of_frame (h : s.frame = t.frame) (subject : Subject) (offset : Nat) :
    s.atTopLevel subject offset = t.atTopLevel subject offset := by
  rw [atTopLevel, atTopLevel, inAnyClass_of_frame h]
  simp only [blockAt?_of_frame h]

/-- The body of a class is recorded at the brace where the class says it opens. -/
def Framed (scan : Scan) : Prop :=
  ∀ opening index, (opening, Block.classBody index) ∈ scan.blocks →
    (scan.frame.2[index]?).map Prod.fst = some opening

theorem framed_empty : empty.Framed := by
  intro opening index h
  simp [empty] at h

theorem Framed.of_frame (h : s.Framed) (heq : t.frame = s.frame) : t.Framed := by
  have hblocks : t.blocks = s.blocks := congrArg Prod.fst heq
  intro opening index hmem
  rw [heq]
  exact h opening index (hblocks ▸ hmem)

theorem Framed.record (h : scan.Framed) {finding : Finding}
    (hb : ∀ opening index, finding ≠ .block opening (.classBody index)) :
    (scan.record finding).Framed := by
  cases finding with
  | block opening block =>
    intro opening' index hmem
    rcases List.mem_cons.mp hmem with heq | hmem
    · obtain ⟨rfl, rfl⟩ := Prod.mk.inj heq
      exact absurd rfl (hb _ _)
    · exact h opening' index hmem
  | classBody draft =>
    intro opening index hmem
    rcases List.mem_cons.mp hmem with heq | hmem
    · obtain ⟨rfl, hindex⟩ := Prod.mk.inj heq
      obtain rfl := Block.classBody.inj hindex
      simp [frame, Scan.record]
    · have hold := h opening index hmem
      have hlt : index < scan.classes.length := by
        rw [Option.map_eq_some_iff] at hold
        obtain ⟨range, hrange, -⟩ := hold
        obtain ⟨hlt, -⟩ := List.getElem?_eq_some_iff.mp hrange
        simpa [frame] using hlt
      have hframe : (scan.record (.classBody draft)).frame.2[index]? = scan.frame.2[index]? := by
        simp [frame, Scan.record, List.getElem?_append_left, hlt]
      rw [hframe, hold]
  | package | imported | label | abstractClass | method | property | function | error | warning =>
    exact h.of_frame (frame_record rfl)

theorem Framed.recordAll {findings : List Finding} (h : scan.Framed)
    (hb : ∀ opening index, .block opening (.classBody index) ∉ findings) :
    (scan.recordAll findings).Framed := by
  induction findings generalizing scan with
  | nil => exact h
  | cons finding findings ih =>
    refine ih (h.record fun opening index heq => hb opening index (by simp [heq])) ?_
    exact fun opening index hmem => hb opening index (by simp [hmem])

/-! ## The entries of a scan -/

theorem functions_recordAll (findings : List Finding) {entry : FunctionEntry}
    (h : entry ∈ (scan.recordAll findings).functions) :
    entry ∈ scan.functions ∨ .function entry ∈ findings := by
  induction findings generalizing scan with
  | nil => exact .inl h
  | cons finding findings ih =>
    rcases ih h with hmem | hmem
    · cases finding with
      | function entry' =>
        rcases List.mem_append.mp hmem with hmem | hmem
        · exact .inl hmem
        · exact .inr (by simp [List.mem_singleton.mp hmem])
      | package | imported | block | classBody | label | abstractClass | method | property
      | error | warning => exact .inl hmem
    · exact .inr (by simp [hmem])

/-- Every method of a class satisfies what is asked of methods of that class. -/
def MethodsMeet (P : Nat → FunctionEntry → Prop) (scan : Scan) : Prop :=
  ∀ index draft, scan.classes[index]? = some draft → ∀ entry ∈ draft.entry.methods, P index entry

theorem MethodsMeet.modify {P : Nat → FunctionEntry → Prop} (h : scan.MethodsMeet P)
    {change : ClassDraft → ClassDraft} {at' : Nat}
    (hc : ∀ draft, (∀ entry ∈ draft.entry.methods, P at' entry) →
      ∀ entry ∈ (change draft).entry.methods, P at' entry) :
    MethodsMeet P { scan with classes := scan.classes.modify at' change } := by
  intro index draft hd
  rw [List.getElem?_modify, Option.map_eq_map, Option.map_eq_some_iff] at hd
  obtain ⟨old, hold, rfl⟩ := hd
  split
  · next heq =>
    subst heq
    exact hc old (h _ old hold)
  · exact h index old hold

theorem MethodsMeet.record {P : Nat → FunctionEntry → Prop} (h : scan.MethodsMeet P)
    {finding : Finding} (hm : ∀ index entry, finding = .method index entry → P index entry)
    (hd : ∀ draft, finding = .classBody draft → draft.entry.methods = []) :
    (scan.record finding).MethodsMeet P := by
  cases finding with
  | classBody new =>
    intro index draft hdraft entry he
    have hconcat : (scan.classes ++ [new])[index]? = some draft := hdraft
    rcases Nat.lt_or_ge index scan.classes.length with hlt | hge
    · rw [List.getElem?_append_left hlt] at hconcat
      exact h index draft hconcat entry he
    · rw [List.getElem?_append_right hge] at hconcat
      have hnew : draft = new := List.mem_singleton.mp (List.mem_of_getElem? hconcat)
      rw [hnew, hd new rfl] at he
      exact absurd he List.not_mem_nil
  | method index entry =>
    refine h.modify fun draft hold entry' he => ?_
    rcases List.mem_append.mp he with he | he
    · exact hold entry' he
    · rw [List.mem_singleton.mp he]
      exact hm index entry rfl
  | label | abstractClass | property => exact h.modify fun draft hold => hold
  | package | imported | block | function | error | warning => exact h

theorem MethodsMeet.recordAll {P : Nat → FunctionEntry → Prop} {findings : List Finding}
    (h : scan.MethodsMeet P) (hm : ∀ index entry, .method index entry ∈ findings → P index entry)
    (hd : ∀ draft, .classBody draft ∈ findings → draft.entry.methods = []) :
    (scan.recordAll findings).MethodsMeet P := by
  induction findings generalizing scan with
  | nil => exact h
  | cons finding findings ih =>
    have hrecord : (scan.record finding).MethodsMeet P :=
      h.record (fun index entry heq => hm index entry (by simp [heq]))
        fun draft heq => hd draft (by simp [heq])
    exact ih hrecord (fun index entry hf => hm index entry (by simp [hf]))
      fun draft hf => hd draft (by simp [hf])

end Scan

/-! ## A whole run -/

/-- Where the entries of a scan come from, event by event, and where each event
stands in the frame that the whole run leaves behind. -/
structure Contained (subject : Subject) (scan : Scan) (events : List Event) : Prop where
  classBodies : ∀ opening index, scan.blockAt? opening = some (.classBody index) →
    ∃ draft, scan.classes[index]? = some draft ∧ draft.opening = opening
  functions : ∀ entry ∈ scan.functions, ∃ event ∈ events, .function entry ∈ event.findings
  outside : ∀ event ∈ events, ∀ entry, .function entry ∈ event.findings →
    (∀ draft ∈ scan.classes,
      ¬ (draft.opening ≤ event.found.start ∧ event.found.start ≤ draft.close)) ∧
    ∀ opening, subject.source.braces.enclosingOpen event.found.start = some opening →
      scan.blockAt? opening = some .linkage ∨
        ∃ name, scan.blockAt? opening = some (.scope name)
  methods : ∀ index draft, scan.classes[index]? = some draft →
    ∀ entry ∈ draft.entry.methods, ∃ event ∈ events, .method index entry ∈ event.findings
  inside : ∀ event ∈ events, ∀ index entry, .method index entry ∈ event.findings →
    ∃ opening, subject.source.braces.enclosingOpen event.found.start = some opening ∧
      scan.blockAt? opening = some (.classBody index)
  onePlace : ∀ before event later, events = before ++ event :: later →
    event.findings.countP Finding.opensClass ≤ 1 ∧
      ∃ place, ∀ finding ∈ event.findings, ∀ p,
        finding.place? (Scan.after before).classes.length = some p → p = place

namespace Scan

theorem outside_of_atTopLevel {scan : Scan} {subject : Subject} {offset : Nat}
    (h : scan.atTopLevel subject offset = true) :
    (∀ draft ∈ scan.classes, ¬ (draft.opening ≤ offset ∧ offset ≤ draft.close)) ∧
      ∀ opening, subject.source.braces.enclosingOpen offset = some opening →
        scan.blockAt? opening = some .linkage ∨
          ∃ name, scan.blockAt? opening = some (.scope name) := by
  rw [atTopLevel, Bool.and_eq_true, Bool.not_eq_true'] at h
  obtain ⟨hclasses, hblock⟩ := h
  refine ⟨fun draft hd hrange => ?_, fun opening ho => ?_⟩
  · have hany : scan.inAnyClass offset = true :=
      List.any_eq_true.mpr ⟨draft, hd, by simpa using hrange⟩
    rw [hclasses] at hany
    exact Bool.false_ne_true hany
  · rw [ho] at hblock
    cases hopened : scan.blockAt? opening with
    | none => simp [hopened] at hblock
    | some opened =>
      cases opened with
      | linkage => exact .inl rfl
      | scope name => exact .inr ⟨name, rfl⟩
      | classBody index => simp [hopened] at hblock

theorem enclosing_of_classAt? {scan : Scan} {subject : Subject} {offset index : Nat}
    {draft : ClassDraft} (h : scan.classAt? subject offset = some (index, draft)) :
    ∃ opening, subject.source.braces.enclosingOpen offset = some opening ∧
      scan.blockAt? opening = some (.classBody index) := by
  rw [classAt?] at h
  split at h
  · next index' hblock =>
    obtain ⟨opening, ho, hopened⟩ := Option.bind_eq_some_iff.mp hblock
    obtain ⟨draft', -, heq⟩ := Option.map_eq_some_iff.mp h
    obtain ⟨rfl, -⟩ := Prod.mk.inj heq
    exact ⟨opening, ho, hopened⟩
  · exact absurd h (by simp)

end Scan

/-- The rules lay out the frame first and fill it then. -/
def Language.Phased (language : Language) (subject : Subject) : Prop :=
  ∃ framing filling, language.rules = framing ++ filling ∧
    (∀ rule ∈ framing, rule.Contributes .framing subject) ∧
    ∀ rule ∈ filling, rule.Contributes .filling subject

namespace Language

variable {language : Language} {subject : Subject} {events : List Event}

theorem rule_mem_of_sites {rules : List Rule}
    (h : events.map Event.site = rules.flatMap fun rule =>
      (rule.pattern.findAll (rule.text subject.source)).map (rule, ·)) :
    ∀ event ∈ events, event.rule ∈ rules := by
  intro event he
  have hsite : event.site ∈ events.map Event.site := List.mem_map_of_mem he
  rw [h] at hsite
  obtain ⟨rule, hrule, hfound⟩ := List.mem_flatMap.mp hsite
  obtain ⟨found, -, hpair⟩ := List.mem_map.mp hfound
  exact (Prod.mk.inj hpair).1 ▸ hrule

theorem Run.exists_phases (h : language.Run subject events) {framing filling : List Rule}
    (hrules : language.rules = framing ++ filling) :
    ∃ first second, events = first ++ second ∧ (∀ event ∈ first, event.rule ∈ framing) ∧
      ∀ event ∈ second, event.rule ∈ filling := by
  have hsites := h.sites
  rw [Language.sites, hrules, List.flatMap_append] at hsites
  obtain ⟨first, second, hsplit, hfirst, hsecond⟩ := List.map_eq_append_iff.mp hsites
  exact ⟨first, second, hsplit, rule_mem_of_sites hfirst, rule_mem_of_sites hsecond⟩

/-- The events of one rule stand between those of the rules in front of it and behind it. -/
theorem Run.exists_around (h : language.Run subject events) {front back : List Rule} {rule : Rule}
    (hrules : language.rules = front ++ rule :: back) :
    ∃ first here last, events = first ++ (here ++ last) ∧
      (∀ event ∈ first, event.rule ∈ front) ∧
      here.map Event.site =
        (rule.pattern.findAll (rule.text subject.source)).map (rule, ·) ∧
      ∀ event ∈ last, event.rule ∈ back := by
  have hsites := h.sites
  rw [Language.sites, hrules, List.flatMap_append, List.flatMap_cons] at hsites
  obtain ⟨first, others, rfl, hfirst, hothers⟩ := List.map_eq_append_iff.mp hsites
  obtain ⟨here, last, rfl, hhere, hlast⟩ := List.map_eq_append_iff.mp hothers
  exact ⟨first, here, last, rfl, rule_mem_of_sites hfirst, hhere, rule_mem_of_sites hlast⟩

end Language

theorem Contributes.frames_eq_false {subject : Subject} {scan : Scan} {start : Nat}
    {findings : List Finding} (h : Contributes .filling subject scan start findings) :
    ∀ finding ∈ findings, finding.frames = false := by
  intro finding hf
  have hallowed := h.allowed finding hf
  cases finding with
  | block | classBody => exact absurd hallowed.1 (by decide)
  | package | imported | label | abstractClass | method | property | function | error | warning =>
    rfl

theorem Told.contributes {subject : Subject} {before later : List Event} {event : Event}
    {phase : Phase} (h : Told subject (before ++ event :: later))
    (hr : event.rule.Contributes phase subject) :
    Contributes phase subject (Scan.after before) event.found.start event.findings :=
  hr _ _ _ (h before event later rfl)

/-- An event after others contributes what its phase allows, and the frame that an
event of the second phase was told by is that of the scan in the end. -/
def Stands (subject : Subject) (scan : Scan) (before : List Event) (event : Event) : Prop :=
  ∃ phase, Contributes phase subject (Scan.after before) event.found.start event.findings ∧
    (phase = .filling → scan.frame = (Scan.after before).frame)

section Phases

variable {subject : Subject} {first second : List Event}

/-- Events of the second phase leave the frame as the first one left it. -/
theorem frame_after_append (ht : Told subject (first ++ second))
    (hs : ∀ event ∈ second, event.rule.Contributes .filling subject) {mid rest : List Event}
    (hsecond : second = mid ++ rest) :
    (Scan.after (first ++ mid)).frame = (Scan.after first).frame := by
  rw [Scan.after_append]
  refine Scan.frame_recordAll fun finding hf => ?_
  obtain ⟨event, he, hfinding⟩ := List.mem_flatMap.mp hf
  obtain ⟨before, later, rfl⟩ := List.append_of_mem he
  have htold : Told subject ((first ++ before) ++ event :: (later ++ rest)) := by
    simpa [hsecond] using ht
  exact (htold.contributes (hs event (by simp [hsecond]))).frames_eq_false finding hfinding

theorem stands (ht : Told subject (first ++ second))
    (hf : ∀ event ∈ first, event.rule.Contributes .framing subject)
    (hs : ∀ event ∈ second, event.rule.Contributes .filling subject)
    {before later : List Event} {event : Event} (h : first ++ second = before ++ event :: later) :
    Stands subject (Scan.after (first ++ second)) before event := by
  have htold : Told subject (before ++ event :: later) := h ▸ ht
  have hsecond : ∀ mid, before = first ++ mid → second = mid ++ event :: later →
      Stands subject (Scan.after (first ++ second)) before event := by
    intro mid hbefore hsplit
    refine ⟨.filling, htold.contributes (hs event (by simp [hsplit])), fun _ => ?_⟩
    have hall := frame_after_append ht hs (List.append_nil second).symm
    have hmid := frame_after_append ht hs hsplit
    rw [hall, hbefore, hmid]
  rcases List.append_eq_append_iff.mp h with ⟨mid, hbefore, hsplit⟩ | ⟨mid, hfirst, hsplit⟩
  · exact hsecond mid hbefore hsplit
  · cases mid with
    | nil => exact hsecond [] (by simpa using hfirst.symm) (by simpa using hsplit.symm)
    | cons event' mid =>
      obtain ⟨rfl, -⟩ := List.cons.inj hsplit
      exact ⟨.framing, htold.contributes (hf event (by simp [hfirst])), fun hp => nomatch hp⟩

end Phases

section Stands

variable {subject : Subject} {scan : Scan} {before : List Event} {event : Event}

theorem Stands.outside (h : Stands subject scan before event) {entry : FunctionEntry}
    (he : .function entry ∈ event.findings) :
    scan.atTopLevel subject event.found.start = true := by
  obtain ⟨phase, hc, hframe⟩ := h
  obtain ⟨hphase, htop⟩ := hc.allowed _ he
  rw [Scan.atTopLevel_of_frame (hframe hphase)]
  exact htop

theorem Stands.inside (h : Stands subject scan before event) {index : Nat} {entry : FunctionEntry}
    (he : .method index entry ∈ event.findings) :
    ∃ opening, subject.source.braces.enclosingOpen event.found.start = some opening ∧
      scan.blockAt? opening = some (.classBody index) := by
  obtain ⟨phase, hc, hframe⟩ := h
  obtain ⟨hphase, draft, hclass⟩ := hc.allowed _ he
  obtain ⟨opening, ho, hblock⟩ := Scan.enclosing_of_classAt? hclass
  refine ⟨opening, ho, ?_⟩
  rw [Scan.blockAt?_of_frame (hframe hphase)]
  exact hblock

end Stands

/-- A recorded body is that of the class with its index. -/
theorem Scan.Framed.exists_draft {scan : Scan} (h : scan.Framed) {opening index : Nat}
    (hb : scan.blockAt? opening = some (.classBody index)) :
    ∃ draft, scan.classes[index]? = some draft ∧ draft.opening = opening := by
  have hmem : (opening, Block.classBody index) ∈ scan.blocks := by
    rw [Scan.blockAt?, List.lookup_eq_some_iff] at hb
    obtain ⟨before, later, hblocks, -⟩ := hb
    simp [hblocks]
  have hfirst := h opening index hmem
  rw [Scan.frame, List.getElem?_map, Option.map_map, Option.map_eq_some_iff] at hfirst
  exact hfirst

namespace Language

theorem Run.contained {language : Language} {subject : Subject} {events : List Event}
    (h : language.Run subject events) (hp : language.Phased subject) :
    Contained subject (Scan.after events) events := by
  obtain ⟨framing, filling, hrules, hframing, hfilling⟩ := hp
  obtain ⟨first, second, rfl, hfirst, hsecond⟩ := h.exists_phases hrules
  have hstands : ∀ {before event later}, first ++ second = before ++ event :: later →
      Stands subject (Scan.after (first ++ second)) before event :=
    stands h.told (fun event he => hframing _ (hfirst event he))
      fun event he => hfilling _ (hsecond event he)
  have hallowed : ∀ finding ∈ (first ++ second).flatMap Event.findings,
      ∃ phase scan start, finding.Allowed phase subject scan start := by
    intro finding hf
    obtain ⟨event, he, hfinding⟩ := List.mem_flatMap.mp hf
    obtain ⟨before, later, hsplit⟩ := List.append_of_mem he
    obtain ⟨phase, hc, -⟩ := hstands hsplit
    exact ⟨phase, _, _, hc.allowed finding hfinding⟩
  refine ⟨fun opening index hb => ?_, fun entry he => ?_, fun event he entry hf => ?_,
    ?_, fun event he index entry hf => ?_, fun before event later hsplit => ?_⟩
  · have hframed : (Scan.after (first ++ second)).Framed := by
      refine Scan.framed_empty.recordAll fun opening index hmem => ?_
      obtain ⟨phase, scan, start, -, hblock⟩ := hallowed _ hmem
      exact hblock index rfl
    exact hframed.exists_draft hb
  · rcases Scan.functions_recordAll _ he with hnone | hmem
    · exact absurd hnone List.not_mem_nil
    · exact List.mem_flatMap.mp hmem
  · obtain ⟨before, later, hsplit⟩ := List.append_of_mem he
    exact Scan.outside_of_atTopLevel ((hstands hsplit).outside hf)
  · refine Scan.MethodsMeet.recordAll ?_ (fun index entry hmem => List.mem_flatMap.mp hmem) ?_
    · intro index draft hd
      simp [Scan.empty] at hd
    · intro draft hmem
      obtain ⟨phase, scan, start, -, hmethods⟩ := hallowed _ hmem
      exact hmethods
  · obtain ⟨before, later, hsplit⟩ := List.append_of_mem he
    exact (hstands hsplit).inside hf
  · obtain ⟨phase, hc, -⟩ := hstands hsplit
    exact ⟨hc.oneClass, hc.onePlace⟩

end Language
end Outline
