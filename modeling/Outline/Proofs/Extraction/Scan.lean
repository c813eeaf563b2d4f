import Outline.Extraction.Scan
import Outline.Proofs.Source.Balanced

/-!
# What every finding passes, every summary passes

A scan only ever collects what recognizers find, and the summary only puts it in
order.  So a check that every finding passes is one that every entry of the
summary passes, whatever the check is about.
-/

namespace Outline

/-- Checks on the entries of a summary.  A class is checked by its lines; its
members are checked as such. -/
structure Checks where
  function : FunctionEntry → Prop
  classLines : Nat → Nat → Prop
  property : PropertyEntry → Prop
  imported : ImportEntry → Prop
  diagnostic : Diagnostic → Prop

structure ClassEntry.Meets (checks : Checks) (entry : ClassEntry) : Prop where
  lines : checks.classLines entry.startLine entry.endLine
  methods : ∀ method ∈ entry.methods, checks.function method
  properties : ∀ property ∈ entry.properties, checks.property property

/-- A finding brings in nothing that fails its check. -/
def Finding.Meets (checks : Checks) : Finding → Prop
  | .package _ | .block _ _ | .label _ _ _ | .abstractClass _ => True
  | .imported entry => checks.imported entry
  | .classBody draft => draft.entry.Meets checks
  | .method _ entry | .function entry => checks.function entry
  | .property _ entry => checks.property entry
  | .error diagnostic | .warning diagnostic => checks.diagnostic diagnostic

/-- None of some findings does. -/
def Finding.AllMeet (checks : Checks) (findings : List Finding) : Prop :=
  ∀ finding ∈ findings, finding.Meets checks

structure Scan.Meets (checks : Checks) (scan : Scan) : Prop where
  classes : ∀ draft ∈ scan.classes, draft.entry.Meets checks
  functions : ∀ entry ∈ scan.functions, checks.function entry
  imports : ∀ entry ∈ scan.imports, checks.imported entry
  errors : ∀ diagnostic ∈ scan.errors, checks.diagnostic diagnostic
  warnings : ∀ diagnostic ∈ scan.warnings, checks.diagnostic diagnostic

/-- Every export names the line of a function or a class of the summary. -/
structure Summary.Meets (checks : Checks) (summary : Summary) : Prop where
  classes : ∀ entry ∈ summary.classes, entry.Meets checks
  functions : ∀ entry ∈ summary.functions, checks.function entry
  imports : ∀ entry ∈ summary.imports, checks.imported entry
  exports : ∀ entry ∈ summary.exports,
    (∃ function ∈ summary.functions, entry.line = function.startLine) ∨
      ∃ class' ∈ summary.classes, entry.line = class'.startLine
  errors : ∀ diagnostic ∈ summary.syntaxErrors, checks.diagnostic diagnostic
  warnings : ∀ diagnostic ∈ summary.warnings, checks.diagnostic diagnostic

namespace Finding

variable {checks : Checks}

theorem allMeet_nil : AllMeet checks [] := by simp [AllMeet]

theorem allMeet_singleton {finding : Finding} (h : finding.Meets checks) :
    AllMeet checks [finding] := by
  intro f hf
  exact List.mem_singleton.mp hf ▸ h

theorem AllMeet.cons {finding : Finding} {findings : List Finding} (h : finding.Meets checks)
    (h' : AllMeet checks findings) : AllMeet checks (finding :: findings) := by
  intro f hf
  rcases List.mem_cons.mp hf with rfl | hf
  · exact h
  · exact h' f hf

theorem AllMeet.append {findings findings' : List Finding} (h : AllMeet checks findings)
    (h' : AllMeet checks findings') : AllMeet checks (findings ++ findings') := by
  intro f hf
  rcases List.mem_append.mp hf with hf | hf
  · exact h f hf
  · exact h' f hf

end Finding

namespace Scan

variable {checks : Checks}

theorem empty_meets : empty.Meets checks := by
  refine ⟨?_, ?_, ?_, ?_, ?_⟩ <;> simp [empty]

/-! ## Recording -/

/-- What holds of all entries and is kept by a change holds after changing one. -/
theorem forall_mem_modify {α : Type} {P : α → Prop} {f : α → α} {entries : List α}
    (h : ∀ a ∈ entries, P a) (hf : ∀ a, P a → P (f a)) (index : Nat) :
    ∀ a ∈ entries.modify index f, P a := by
  intro a ha
  obtain ⟨i, hi⟩ := List.mem_iff_getElem?.mp ha
  rw [List.getElem?_modify, Option.map_eq_map, Option.map_eq_some_iff] at hi
  obtain ⟨b, hb, rfl⟩ := hi
  have hpb := h b (List.mem_of_getElem? hb)
  split
  · exact hf b hpb
  · exact hpb

theorem forall_mem_concat {α : Type} {P : α → Prop} {entries : List α} {last : α}
    (h : ∀ a ∈ entries, P a) (hlast : P last) : ∀ a ∈ entries ++ [last], P a := by
  intro a ha
  rcases List.mem_append.mp ha with ha | ha
  · exact h a ha
  · exact List.mem_singleton.mp ha ▸ hlast

theorem Meets.record {scan : Scan} (h : scan.Meets checks) {finding : Finding}
    (hf : finding.Meets checks) : (scan.record finding).Meets checks := by
  obtain ⟨hc, hfn, hi, he, hw⟩ := h
  cases finding with
  | package => exact ⟨hc, hfn, hi, he, hw⟩
  | block => exact ⟨hc, hfn, hi, he, hw⟩
  | imported => exact ⟨hc, hfn, forall_mem_concat hi hf, he, hw⟩
  | classBody => exact ⟨forall_mem_concat hc hf, hfn, hi, he, hw⟩
  | label index =>
    refine ⟨forall_mem_modify hc (fun _ hd => ?_) index, hfn, hi, he, hw⟩
    exact ⟨hd.lines, hd.methods, hd.properties⟩
  | abstractClass index =>
    refine ⟨forall_mem_modify hc (fun _ hd => ?_) index, hfn, hi, he, hw⟩
    exact ⟨hd.lines, hd.methods, hd.properties⟩
  | method index =>
    refine ⟨forall_mem_modify hc (fun _ hd => ?_) index, hfn, hi, he, hw⟩
    exact ⟨hd.lines, forall_mem_concat hd.methods hf, hd.properties⟩
  | property index =>
    refine ⟨forall_mem_modify hc (fun _ hd => ?_) index, hfn, hi, he, hw⟩
    exact ⟨hd.lines, hd.methods, forall_mem_concat hd.properties hf⟩
  | function => exact ⟨hc, forall_mem_concat hfn hf, hi, he, hw⟩
  | error => exact ⟨hc, hfn, hi, forall_mem_concat he hf, hw⟩
  | warning => exact ⟨hc, hfn, hi, he, forall_mem_concat hw hf⟩

theorem Meets.recordAll {findings : List Finding} {scan : Scan} (h : scan.Meets checks)
    (hf : Finding.AllMeet checks findings) : (scan.recordAll findings).Meets checks := by
  induction findings generalizing scan with
  | nil => exact h
  | cons finding findings ih =>
    exact ih (h.record (hf finding List.mem_cons_self)) fun f hm => hf f (List.mem_cons_of_mem _ hm)

/-! ## The summary -/

theorem Meets.finishClass {draft : ClassDraft} (h : draft.entry.Meets checks) :
    (finishClass draft).Meets checks := by
  refine ⟨h.lines, fun method hm => ?_, fun property hp => ?_⟩
  · exact h.methods method (List.mem_mergeSort.mp hm)
  · exact h.properties property (List.mem_mergeSort.mp hp)

theorem Meets.finish {scan : Scan} (h : scan.Meets checks) (language : String) :
    (scan.finish language).Meets checks := by
  refine ⟨?_, ?_, h.imports, ?_, ?_, ?_⟩
  · intro entry hm
    obtain ⟨draft, hd, rfl⟩ := List.mem_map.mp hm
    exact Meets.finishClass (h.classes draft hd)
  · intro entry hm
    exact h.functions entry (List.mem_mergeSort.mp hm)
  · intro entry hm
    rcases List.mem_append.mp (List.mem_mergeSort.mp hm) with hm | hm
    · obtain ⟨draft, hd, he⟩ := List.mem_filterMap.mp hm
      rw [exportOfClass?] at he
      split at he
      · cases he
        exact Or.inr ⟨Scan.finishClass draft, List.mem_map.mpr ⟨draft, hd, rfl⟩, rfl⟩
      · simp at he
    · obtain ⟨function, hfn, he⟩ := List.mem_filterMap.mp hm
      rw [exportOfFunction?] at he
      split at he
      · cases he
        exact Or.inl ⟨function, hfn, rfl⟩
      · simp at he
  · intro diagnostic hm
    exact h.errors diagnostic (List.mem_mergeSort.mp hm)
  · intro diagnostic hm
    exact h.warnings diagnostic (List.mem_mergeSort.mp hm)

end Scan
end Outline

/-!
## The class around a place

A place belongs to the class of the innermost brace that is open there, if that brace opens the
body of a class.
-/

namespace Outline
namespace Scan

variable {subject : Subject} {scan : Scan}

theorem classAt?_zero (hb : subject.source.braces = .ofText subject.masked) :
    scan.classAt? subject 0 = none := by
  have hnone : subject.source.braces.enclosingOpen 0 = none := by
    rw [hb, BraceIndex.enclosingOpen, List.head?_eq_none_iff]
    refine List.eq_nil_iff_forall_not_mem.mpr fun p hp => ?_
    exact absurd (BraceIndex.lt_of_mem_enclosingChain hp) (Nat.not_lt_zero p)
  rw [Scan.classAt?, hnone]
  rfl

/-- Behind the brace of a class and a balanced text a place is in the class. -/
theorem classAt?_of_balanced {before inner rest : List Char} {index : Nat} {draft : ClassDraft}
    (hb : subject.source.braces = .ofText (before ++ '\x7b' :: (inner ++ rest)))
    (hbefore : Delimiter.balanced '\x7b' '\x7d' before = true)
    (hinner : Delimiter.balanced '\x7b' '\x7d' inner = true)
    (hblock : scan.blockAt? (Text.width before) = some (.classBody index))
    (hclass : scan.classes[index]? = some draft) :
    scan.classAt? subject (Text.width (before ++ '\x7b' :: inner)) = some (index, draft) := by
  rw [classAt?, hb, BraceIndex.enclosingOpen_of_balanced hbefore hinner, Option.bind_some, hblock]
  dsimp only
  rw [hclass]
  rfl

end Scan
end Outline
