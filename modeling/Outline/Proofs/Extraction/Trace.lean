import Outline.Extraction.Language

/-!
# Where findings come from

A run of the rules is a sequence of events, one for each match of each rule, in
the order in which the rules look at them.  What an event tells depends on what
the events before it told and on nothing else, so a property of a scan can be
stated about the events it was collected from.
-/

namespace Outline

/-- One match of a rule and what the rule told about it. -/
structure Event where
  rule : Rule
  found : Match
  findings : List Finding

namespace Event

def site (event : Event) : Rule × Match := (event.rule, event.found)

end Event

/-- What some events have told, from the first to the last. -/
def Scan.after (events : List Event) : Scan := empty.recordAll (events.flatMap Event.findings)

theorem Scan.recordAll_append (scan : Scan) (a b : List Finding) :
    scan.recordAll (a ++ b) = (scan.recordAll a).recordAll b := List.foldl_append

theorem Scan.after_append (a b : List Event) :
    after (a ++ b) = (after a).recordAll (b.flatMap Event.findings) := by
  rw [after, List.flatMap_append, recordAll_append, after]

/-- Each event tells what its rule finds, given what the events before it told. -/
def Told (subject : Subject) (events : List Event) : Prop :=
  ∀ before event later, events = before ++ event :: later →
    event.rule.apply subject (Scan.after before) event.found = .ok event.findings

namespace Told

variable {subject : Subject} {events : List Event} {event : Event}

theorem nil : Told subject [] := by
  intro before event later h
  simp at h

theorem concat (h : Told subject events)
    (he : event.rule.apply subject (Scan.after events) event.found = .ok event.findings) :
    Told subject (events ++ [event]) := by
  intro before event' later heq
  rcases List.eq_nil_or_concat later with rfl | ⟨later, last, hlater⟩
  · obtain ⟨rfl, hlast⟩ := List.append_inj' heq rfl
    obtain rfl : event = event' := by simpa using hlast
    exact he
  · have hinit : events = before ++ event' :: later := by
      rw [hlater, List.concat_eq_append, ← List.cons_append, ← List.append_assoc] at heq
      exact (List.append_inj' heq rfl).1
    exact h before event' later hinit

end Told

namespace Language

variable {language : Language} {subject : Subject} {scan : Scan}

/-- The matches of all rules, each with its rule. -/
def sites (language : Language) (subject : Subject) : List (Rule × Match) :=
  language.rules.flatMap fun rule => (rule.pattern.findAll (rule.text subject.source)).map (rule, ·)

structure Run (language : Language) (subject : Subject) (events : List Event) : Prop where
  sites : events.map Event.site = language.sites subject
  told : Told subject events

theorem scan_eq_foldlM_sites (language : Language) (subject : Subject) :
    language.scan subject =
      (language.sites subject).foldlM (fun scan site => site.1.step subject scan site.2)
        .empty := by
  rw [scan, sites]
  generalize Scan.empty = scan
  induction language.rules generalizing scan with
  | nil => rfl
  | cons rule rules ih =>
    rw [List.foldlM_cons, List.flatMap_cons, List.foldlM_append, List.foldlM_map]
    exact congrArg _ (funext ih)

/-- Looking at more sites adds an event for each of them. -/
theorem exists_events {sites : List (Rule × Match)} {events : List Event}
    (ht : Told subject events)
    (h : sites.foldlM (fun scan site => site.1.step subject scan site.2)
      (Scan.after events) = .ok scan) :
    ∃ more, more.map Event.site = sites ∧ Told subject (events ++ more) ∧
      scan = Scan.after (events ++ more) := by
  induction sites generalizing events with
  | nil =>
    have hscan : Scan.after events = scan := Except.ok.inj h
    exact ⟨[], rfl, by simpa using ht, by simp [hscan]⟩
  | cons site sites ih =>
    obtain ⟨rule, found⟩ := site
    rw [List.foldlM_cons] at h
    cases happly : rule.apply subject (Scan.after events) found with
    | error e =>
      simp only [Rule.step, happly] at h
      exact nomatch h
    | ok findings =>
      have hafter : rule.step subject (Scan.after events) found =
          .ok (Scan.after (events ++ [⟨rule, found, findings⟩])) := by
        rw [Rule.step, happly, Scan.after_append, List.flatMap_singleton]
        rfl
      rw [hafter] at h
      obtain ⟨more, hsites, htold, hscan⟩ := ih (ht.concat happly) h
      refine ⟨⟨rule, found, findings⟩ :: more, ?_, ?_, ?_⟩
      · rw [List.map_cons, hsites]
        rfl
      · simpa using htold
      · simpa using hscan

theorem exists_run (h : language.scan subject = .ok scan) :
    ∃ events, language.Run subject events ∧ scan = Scan.after events := by
  rw [scan_eq_foldlM_sites] at h
  obtain ⟨events, hsites, htold, hscan⟩ := exists_events Told.nil h
  exact ⟨events, ⟨hsites, htold⟩, hscan⟩

end Language
end Outline
