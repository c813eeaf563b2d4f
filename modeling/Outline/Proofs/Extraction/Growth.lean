import Mathlib.Data.List.Induction
import Outline.Proofs.Extraction.Contribution
import Outline.Proofs.Extraction.Scan

/-!
# What stays as it was recorded

A class comes from one match and keeps what it was recorded with.  Later findings add members and labels to it and
may make it abstract, and nothing else.  In the same way a brace keeps what it opens until
another block is recorded for it.
-/

namespace Outline

/-- A draft as it was recorded, before anything was collected for it. -/
def ClassDraft.given (draft : ClassDraft) : ClassDraft :=
  { draft with
    entry := { draft.entry with methods := [], properties := [], isAbstract := false }
    labels := [] }

namespace Finding

def draft? : Finding → Option ClassDraft
  | .classBody draft => some draft
  | _ => none

/-- The brace for which a finding says what it opens. -/
def opening? : Finding → Option Nat
  | .block opening _ => some opening
  | .classBody draft => some draft.opening
  | _ => none

end Finding

namespace Scan

variable {scan : Scan}

theorem given_record (scan : Scan) (finding : Finding) :
    (scan.record finding).classes.map ClassDraft.given =
      scan.classes.map ClassDraft.given ++ finding.draft?.toList.map ClassDraft.given := by
  cases finding with
  | classBody draft => simp [record, Finding.draft?]
  | package | imported | block | function | error | warning =>
    simp [record, Finding.draft?]
  | label | abstractClass | method | property =>
    simp only [record, Finding.draft?, Option.toList_none, List.map_nil, List.append_nil]
    rw [map_modify]
    intro draft
    rfl

theorem given_recordAll (findings : List Finding) (scan : Scan) :
    (scan.recordAll findings).classes.map ClassDraft.given =
      scan.classes.map ClassDraft.given ++
        (findings.filterMap Finding.draft?).map ClassDraft.given := by
  induction findings generalizing scan with
  | nil => simp [recordAll]
  | cons finding findings ih =>
    rw [recordAll, List.foldl_cons, ← recordAll, ih, given_record, List.append_assoc]
    cases finding <;> rfl

/-- A class is there after more has been recorded, as it was recorded. -/
theorem getElem?_given_recordAll {index : Nat} {draft : ClassDraft}
    (h : scan.classes[index]? = some draft) (findings : List Finding) :
    ∃ draft', (scan.recordAll findings).classes[index]? = some draft' ∧
      draft'.given = draft.given := by
  have hlt : index < scan.classes.length := (List.getElem?_eq_some_iff.mp h).1
  have hgiven : ((scan.recordAll findings).classes.map ClassDraft.given)[index]? =
      some draft.given := by
    rw [given_recordAll, List.getElem?_append_left (by simpa using hlt), List.getElem?_map, h]
    rfl
  rw [List.getElem?_map, Option.map_eq_some_iff] at hgiven
  exact hgiven

theorem blockAt?_record {opening : Nat} {finding : Finding}
    (h : finding.opening? ≠ some opening) :
    (scan.record finding).blockAt? opening = scan.blockAt? opening := by
  have hcons : ∀ (at' : Nat) (block : Block), at' ≠ opening →
      ((at', block) :: scan.blocks).lookup opening = scan.blocks.lookup opening := by
    intro at' block hne
    have hfalse : (opening == at') = false := beq_eq_false_iff_ne.mpr (Ne.symm hne)
    rw [List.lookup_cons, hfalse]
  cases finding with
  | block at' block => exact hcons at' block fun heq => h (congrArg some heq)
  | classBody draft => exact hcons draft.opening _ fun heq => h (congrArg some heq)
  | package | imported | label | abstractClass | method | property | function | error | warning =>
    rfl

theorem blockAt?_recordAll {opening : Nat} {findings : List Finding}
    (h : ∀ finding ∈ findings, finding.opening? ≠ some opening) :
    (scan.recordAll findings).blockAt? opening = scan.blockAt? opening := by
  induction findings generalizing scan with
  | nil => rfl
  | cons finding findings ih =>
    rw [recordAll, List.foldl_cons, ← recordAll, ih fun f hf => h f (List.mem_cons_of_mem _ hf),
      blockAt?_record (h finding List.mem_cons_self)]

theorem getElem?_of_classAt? {subject : Subject} {offset index : Nat} {draft : ClassDraft}
    (h : scan.classAt? subject offset = some (index, draft)) :
    scan.classes[index]? = some draft := by
  rw [classAt?] at h
  split at h
  · obtain ⟨draft', hget, heq⟩ := Option.map_eq_some_iff.mp h
    cases heq
    exact hget
  · cases h

/-- Without a label among the findings no class gets one. -/
theorem labels_recordAll {findings : List Finding}
    (hs : ∀ draft ∈ scan.classes, draft.labels = [])
    (hl : ∀ index offset visibility, .label index offset visibility ∉ findings)
    (hc : ∀ draft, .classBody draft ∈ findings → draft.labels = []) :
    ∀ draft ∈ (scan.recordAll findings).classes, draft.labels = [] := by
  induction findings generalizing scan with
  | nil => exact hs
  | cons finding findings ih =>
    refine ih ?_ (fun index offset visibility hm => hl index offset visibility (by simp [hm]))
      fun draft hm => hc draft (by simp [hm])
    cases finding with
    | label index offset visibility => exact absurd List.mem_cons_self (hl index offset visibility)
    | classBody draft => exact forall_mem_concat hs (hc draft List.mem_cons_self)
    | abstractClass index | method index | property index =>
      refine forall_mem_modify hs (fun _ hd => ?_) index
      exact hd
    | package | imported | block | function | error | warning => exact hs

end Scan

theorem Told.of_append {subject : Subject} {before rest : List Event}
    (h : Told subject (before ++ rest)) : Told subject before := by
  intro a event b hsplit
  exact h a event (b ++ rest) (by simp [hsplit])

/-! ## Where a class comes from -/

/-- The class with an index was recorded for a match that starts at an offset. -/
def ClassFrom (events : List Event) (index start : Nat) : Prop :=
  ∃ before event later draft, events = before ++ event :: later ∧
    (Scan.after before).classes.length = index ∧ event.found.start = start ∧
    .classBody draft ∈ event.findings

theorem countP_opensClass (findings : List Finding) :
    (findings.filterMap Finding.draft?).length = findings.countP Finding.opensClass := by
  rw [List.length_filterMap_eq_countP]
  congr 1
  funext finding
  cases finding <;> rfl

theorem mem_of_draft? {findings : List Finding} {draft : ClassDraft}
    (h : draft ∈ findings.filterMap Finding.draft?) : .classBody draft ∈ findings := by
  obtain ⟨finding, hf, hd⟩ := List.mem_filterMap.mp h
  cases finding with
  | classBody draft' => exact Option.some.inj hd ▸ hf
  | package | imported | block | label | abstractClass | method | property | function | error
  | warning => exact nomatch hd

theorem draft?_eq_singleton {findings : List Finding} {draft : ClassDraft}
    (h : .classBody draft ∈ findings) (hone : findings.countP Finding.opensClass ≤ 1) :
    findings.filterMap Finding.draft? = [draft] := by
  have hmem : draft ∈ findings.filterMap Finding.draft? := List.mem_filterMap.mpr ⟨_, h, rfl⟩
  rw [← countP_opensClass] at hone
  match hd : findings.filterMap Finding.draft? with
  | [] => simp [hd] at hmem
  | [first] =>
    rw [hd, List.mem_singleton] at hmem
    rw [hmem]
  | _ :: _ :: rest =>
    rw [hd] at hone
    simp at hone

/-- What a match tells of a class is what is recorded of it. -/
theorem given_of_classFrom {before later : List Event} {event : Event} {draft final : ClassDraft}
    (hd : .classBody draft ∈ event.findings)
    (hone : event.findings.countP Finding.opensClass ≤ 1)
    (h : (Scan.after (before ++ event :: later)).classes[(Scan.after before).classes.length]? =
      some final) : final.given = draft.given := by
  have hgiven := congrArg (Option.map ClassDraft.given) h
  rw [← List.getElem?_map, Scan.after_append, Scan.given_recordAll, List.flatMap_cons,
    List.filterMap_append, draft?_eq_singleton hd hone,
    List.getElem?_append_right (by simp), List.length_map, Nat.sub_self] at hgiven
  exact (Option.some.inj hgiven).symm

/-- Every class comes from a match, when no match tells of two. -/
theorem exists_classFrom {events : List Event}
    (h : ∀ event ∈ events, event.findings.countP Finding.opensClass ≤ 1) {index : Nat}
    (hlt : index < (Scan.after events).classes.length) : ∃ start, ClassFrom events index start := by
  induction events using List.reverseRecOn with
  | nil => exact absurd hlt (Nat.not_lt_zero index)
  | append_singleton events event ih =>
    by_cases hold : index < (Scan.after events).classes.length
    · obtain ⟨start, before, event', later, draft, hsplit, hrest⟩ :=
        ih (fun e he => h e (List.mem_append_left _ he)) hold
      exact ⟨start, before, event', later ++ [event], draft, by simp [hsplit], hrest⟩
    · have hcount := h event (by simp)
      have hlen := congrArg List.length (Scan.given_recordAll event.findings (Scan.after events))
      rw [List.length_append, List.length_map, List.length_map, List.length_map,
        countP_opensClass] at hlen
      rw [Scan.after_append, List.flatMap_singleton] at hlt
      have hone : event.findings.countP Finding.opensClass = 1 := by omega
      have hpos : 0 < (event.findings.filterMap Finding.draft?).length := by
        rw [countP_opensClass, hone]
        exact Nat.one_pos
      have hindex : (Scan.after events).classes.length = index := by omega
      exact ⟨_, events, event, [], _, rfl, hindex, rfl, mem_of_draft? (List.getElem_mem hpos)⟩

end Outline
