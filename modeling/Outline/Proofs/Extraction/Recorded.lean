import Outline.Proofs.Extraction.Growth
import Outline.Proofs.Extraction.Kind

/-!
# What is recorded

The functions and diagnostics of a scan are those among its findings, in the order of the
findings.  So are the members of a class, as long as each member is found when its class has
been: a member of a class that is not there would be lost.
-/

namespace Outline

namespace Finding

def function? : Finding → Option FunctionEntry
  | .function entry => some entry
  | _ => none

def error? : Finding → Option Diagnostic
  | .error diagnostic => some diagnostic
  | _ => none

def warning? : Finding → Option Diagnostic
  | .warning diagnostic => some diagnostic
  | _ => none

/-- A method and the index of its class. -/
def method? : Finding → Option (Nat × FunctionEntry)
  | .method index entry => some (index, entry)
  | _ => none

/-- A property and the index of its class. -/
def property? : Finding → Option (Nat × PropertyEntry)
  | .property index entry => some (index, entry)
  | _ => none

/-- The class that a member belongs to. -/
def owner? : Finding → Option Nat
  | .method index _ | .property index _ => some index
  | _ => none

/-- What some findings tell of the class with an index. -/
def ofClass {α : Type} (told : Finding → Option (Nat × α)) (index : Nat) (findings : List Finding) :
    List α :=
  ((findings.filterMap told).filter (·.1 == index)).map (·.2)

/-- Every member belongs to a class that is there by then, when there are `count` classes to begin
with. -/
def Lands : Nat → List Finding → Prop
  | _, [] => True
  | count, finding :: findings =>
    (∀ index, finding.owner? = some index → index < count) ∧
      Lands (count + finding.draft?.toList.length) findings

theorem filterMap_draft?_cons (finding : Finding) (findings : List Finding) :
    (finding :: findings).filterMap draft? =
      finding.draft?.toList ++ findings.filterMap draft? := by
  rw [List.filterMap_cons]
  cases finding.draft? <;> rfl

theorem draft?_of_owner? {finding : Finding} {index : Nat} (h : finding.owner? = some index) :
    finding.draft? = none := by
  cases finding with
  | classBody => cases h
  | package | imported | block | label | abstractClass | method | property | function | error
  | warning => rfl

theorem ofClass_cons_of_none {α : Type} {told : Finding → Option (Nat × α)} {finding : Finding}
    (h : told finding = none) (index : Nat) (findings : List Finding) :
    ofClass told index (finding :: findings) = ofClass told index findings := by
  rw [ofClass, List.filterMap_cons_none h, ofClass]

theorem ofClass_cons_of_some {α : Type} {told : Finding → Option (Nat × α)} {finding : Finding}
    {owner : Nat} {a : α} (h : told finding = some (owner, a)) (index : Nat)
    (findings : List Finding) :
    ofClass told index (finding :: findings) =
      if owner = index then a :: ofClass told index findings else ofClass told index findings := by
  rw [ofClass, List.filterMap_cons_some h, List.filter_cons, ofClass]
  by_cases heq : owner = index <;> simp [heq]

theorem ofClass_append {α : Type} (told : Finding → Option (Nat × α)) (index : Nat)
    (a b : List Finding) :
    ofClass told index (a ++ b) = ofClass told index a ++ ofClass told index b := by
  simp [ofClass]

theorem lands_append {count : Nat} {a b : List Finding} :
    Lands count (a ++ b) ↔ Lands count a ∧ Lands (count + (a.filterMap draft?).length) b := by
  induction a generalizing count with
  | nil => exact (true_and _).symm.to_iff
  | cons finding a ih =>
    rw [List.cons_append, Lands, Lands, ih, filterMap_draft?_cons, List.length_append,
      Nat.add_assoc, and_assoc]

theorem lands_of_forall {count : Nat} {findings : List Finding}
    (h : ∀ finding ∈ findings, ∀ index, finding.owner? = some index → index < count) :
    Lands count findings := by
  induction findings generalizing count with
  | nil => trivial
  | cons finding findings ih =>
    obtain ⟨hfirst, hrest⟩ := List.forall_mem_cons.mp h
    exact ⟨hfirst, ih fun f hf index ho => Nat.lt_add_right _ (hrest f hf index ho)⟩

theorem lt_of_lands {count : Nat} {findings : List Finding} (h : Lands count findings)
    {finding : Finding} (hf : finding ∈ findings) {index : Nat}
    (ho : finding.owner? = some index) : index < count + (findings.filterMap draft?).length := by
  induction findings generalizing count with
  | nil => cases hf
  | cons first findings ih =>
    rcases List.mem_cons.mp hf with rfl | hf
    · exact Nat.lt_add_right _ (h.1 index ho)
    · have hlt := ih h.2 hf
      rwa [filterMap_draft?_cons, List.length_append, ← Nat.add_assoc]

/-- Findings without members. -/
theorem lands_of_among {kinds : List Kind} {findings : List Finding} (h : Among kinds findings)
    (hm : .method ∉ kinds) (hp : .property ∉ kinds) (count : Nat) : Lands count findings := by
  refine lands_of_forall fun finding hf index ho => ?_
  have hkind := h finding hf
  cases finding with
  | method => exact absurd hkind hm
  | property => exact absurd hkind hp
  | package | imported | block | classBody | label | abstractClass | function | error | warning =>
    cases ho

end Finding

/-! ## Lists of the scan -/

namespace Scan

variable {α : Type} {scan : Scan}

/-- A list to which each finding adds what it tells holds what all of them told. -/
theorem recordAll_eq_filterMap {entries : Scan → List α} {told : Finding → Option α}
    (h : ∀ scan finding, entries (scan.record finding) = entries scan ++ (told finding).toList)
    (findings : List Finding) (scan : Scan) :
    entries (scan.recordAll findings) = entries scan ++ findings.filterMap told := by
  induction findings generalizing scan with
  | nil => exact (List.append_nil _).symm
  | cons finding findings ih =>
    rw [recordAll, List.foldl_cons, ← recordAll, ih, h, List.append_assoc, List.filterMap_cons]
    cases told finding <;> rfl

theorem functions_recordAll_eq (findings : List Finding) (scan : Scan) :
    (scan.recordAll findings).functions =
      scan.functions ++ findings.filterMap Finding.function? := by
  refine recordAll_eq_filterMap (fun scan finding => ?_) findings scan
  cases finding <;> simp [record, Finding.function?]

theorem errors_recordAll_eq (findings : List Finding) (scan : Scan) :
    (scan.recordAll findings).errors = scan.errors ++ findings.filterMap Finding.error? := by
  refine recordAll_eq_filterMap (fun scan finding => ?_) findings scan
  cases finding <;> simp [record, Finding.error?]

theorem warnings_recordAll_eq (findings : List Finding) (scan : Scan) :
    (scan.recordAll findings).warnings = scan.warnings ++ findings.filterMap Finding.warning? := by
  refine recordAll_eq_filterMap (fun scan finding => ?_) findings scan
  cases finding <;> simp [record, Finding.warning?]

theorem length_classes_recordAll (findings : List Finding) (scan : Scan) :
    (scan.recordAll findings).classes.length =
      scan.classes.length + (findings.filterMap Finding.draft?).length := by
  have hlength := congrArg List.length (given_recordAll findings scan)
  rwa [List.length_map, List.length_append, List.length_map, List.length_map] at hlength

/-! ## Members of classes -/

/-- What a change of one entry does to a part of the entries is a change of that part. -/
theorem map_modify_eq {α β : Type} {f : α → α} {f' : β → β} {g : α → β}
    (h : ∀ a, g (f a) = f' (g a)) (index : Nat) (entries : List α) :
    (entries.modify index f).map g = (entries.map g).modify index f' := by
  refine List.ext_getElem? fun i => ?_
  rw [List.getElem?_map, List.getElem?_modify, List.getElem?_modify, List.getElem?_map]
  cases entries[i]? with
  | none => rfl
  | some a =>
    show some (g _) = some _
    split
    · rw [h]
    · rfl

/-- A change of one entry of a list in front of another one. -/
theorem getElem?_modify_append {l : List α} {at' : Nat} (h : at' < l.length) (f : α → α)
    (later : List α) (index : Nat) :
    (l.modify at' f ++ later)[index]? =
      (l ++ later)[index]?.map fun a => if at' = index then f a else a := by
  rcases Nat.lt_or_ge index l.length with hi | hi
  · rw [List.getElem?_append_left (by simpa using hi), List.getElem?_append_left hi,
      List.getElem?_modify]
    rfl
  · have hne : at' ≠ index := by omega
    rw [List.getElem?_append_right (by simpa using hi), List.getElem?_append_right hi,
      List.length_modify]
    simp [hne]

/-- What findings tell of a class is added to one of the lists of its draft. -/
structure Collects (told : Finding → Option (Nat × α)) (members : ClassDraft → List α) : Prop where
  owner : ∀ finding index a, told finding = some (index, a) → finding.owner? = some index
  record : ∀ (scan : Scan) (finding : Finding), (scan.record finding).classes.map members =
    match told finding with
    | some (index, a) => (scan.classes.map members).modify index (· ++ [a])
    | none => (scan.classes ++ finding.draft?.toList).map members

theorem collects_methods : Collects Finding.method? (·.entry.methods) where
  owner finding index a h := by
    cases finding with
    | method => exact congrArg some (Prod.mk.inj (Option.some.inj h)).1
    | package | imported | block | classBody | label | abstractClass | property | function | error
    | warning => cases h
  record scan finding := by
    cases finding with
    | method index entry =>
      refine map_modify_eq ?_ index scan.classes
      exact fun draft => rfl
    | classBody => rfl
    | package | imported | block | function | error | warning =>
      exact congrArg (List.map _) (List.append_nil _).symm
    | label index | abstractClass index | property index =>
      refine (map_modify ?_ index scan.classes).trans
        (congrArg (List.map _) (List.append_nil _).symm)
      exact fun draft => rfl

theorem collects_properties : Collects Finding.property? (·.entry.properties) where
  owner finding index a h := by
    cases finding with
    | property => exact congrArg some (Prod.mk.inj (Option.some.inj h)).1
    | package | imported | block | classBody | label | abstractClass | method | function | error
    | warning => cases h
  record scan finding := by
    cases finding with
    | property index entry =>
      refine map_modify_eq ?_ index scan.classes
      exact fun draft => rfl
    | classBody => rfl
    | package | imported | block | function | error | warning =>
      exact congrArg (List.map _) (List.append_nil _).symm
    | label index | abstractClass index | method index =>
      refine (map_modify ?_ index scan.classes).trans
        (congrArg (List.map _) (List.append_nil _).symm)
      exact fun draft => rfl

section

variable {told : Finding → Option (Nat × α)} {members : ClassDraft → List α}

/-- What is recorded of each class is added to what there was, in the order of the findings. -/
theorem Collects.getElem?_recordAll (hc : Collects told members) {findings : List Finding}
    (h : Finding.Lands scan.classes.length findings) (index : Nat) :
    ((scan.recordAll findings).classes.map members)[index]? =
      ((scan.classes ++ findings.filterMap Finding.draft?).map members)[index]?.map
        (· ++ Finding.ofClass told index findings) := by
  induction findings generalizing scan with
  | nil =>
    rw [List.filterMap_nil, List.append_nil, recordAll, List.foldl_nil]
    cases (scan.classes.map members)[index]? with
    | none => rfl
    | some own => exact congrArg some (List.append_nil own).symm
  | cons finding findings ih =>
    obtain ⟨hfirst, hrest⟩ := h
    have hlength : (scan.record finding).classes.length =
        scan.classes.length + finding.draft?.toList.length := by
      have hrecord := length_classes_recordAll [finding] scan
      rwa [Finding.filterMap_draft?_cons, List.filterMap_nil, List.append_nil] at hrecord
    rw [recordAll, List.foldl_cons, ← recordAll, ih (hlength ▸ hrest), List.map_append, hc.record,
      Finding.filterMap_draft?_cons, ← List.append_assoc]
    cases htold : told finding with
    | none =>
      rw [Finding.ofClass_cons_of_none htold]
      exact congrArg (Option.map _) (congrArg (·[index]?) List.map_append.symm)
    | some told' =>
      obtain ⟨owner, a⟩ := told'
      have howner := hc.owner finding owner a htold
      rw [Finding.ofClass_cons_of_some htold, Finding.draft?_of_owner? howner, Option.toList_none,
        List.append_nil]
      -- The member is added to a class in front of those that are found later.
      have howned : owner < (scan.classes.map members).length := by
        simpa using hfirst owner howner
      have hmodify := getElem?_modify_append howned (· ++ [a])
        ((findings.filterMap Finding.draft?).map members) index
      dsimp only
      rw [hmodify, List.map_append, Option.map_map]
      congr 1
      funext own
      by_cases heq : owner = index <;> simp [heq]

/-- Where drafts are recorded without members, a class has those that were recorded for it. -/
theorem Collects.members_eq (hc : Collects told members) {findings : List Finding}
    (h : Finding.Lands 0 findings)
    (hempty : ∀ draft, .classBody draft ∈ findings → members draft = []) {index : Nat}
    {draft : ClassDraft} (hd : (empty.recordAll findings).classes[index]? = some draft) :
    members draft = Finding.ofClass told index findings := by
  have hget := hc.getElem?_recordAll (show Finding.Lands empty.classes.length _ from h) index
  rw [List.getElem?_map, hd, List.getElem?_map] at hget
  obtain ⟨before, hbefore, heq⟩ := Option.map_eq_some_iff.mp hget.symm
  obtain ⟨new, hnew, rfl⟩ := Option.map_eq_some_iff.mp hbefore
  rw [← heq, hempty new (mem_of_draft? (List.mem_of_getElem? hnew)), List.nil_append]

end

end Scan

/-! ## A whole run -/

/-- Events whose members land one after the other have members that land. -/
theorem lands_flatMap {events : List Event} (h : ∀ before event later,
    events = before ++ event :: later →
      Finding.Lands (Scan.after before).classes.length event.findings) :
    Finding.Lands 0 (events.flatMap Event.findings) := by
  induction events using List.reverseRecOn with
  | nil => trivial
  | append_singleton events event ih =>
    rw [List.flatMap_append, List.flatMap_singleton, Finding.lands_append]
    have hlast := h events event [] rfl
    rw [Scan.after, Scan.length_classes_recordAll] at hlast
    refine ⟨ih fun before event' later hsplit => ?_, hlast⟩
    exact h before event' (later ++ [event]) (by rw [hsplit, List.append_assoc]; rfl)

end Outline
