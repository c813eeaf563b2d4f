import Outline.Extraction.Cpp.Pattern
import Outline.Extraction.Java.Pattern
import Outline.Proofs.Entry.NameSet
import Outline.Proofs.Pattern.Separate

/-!
# Dependencies of statements

What names a dependency has no semicolon in it and does not look past one.  So the dependencies of
two statements are those of the one and those of the other.
-/

namespace Outline
namespace Dependency

open Pattern (stopsAt)

variable {rules : DependencyRules} {front back body : List Char}

/-! ## The names of a body -/

/-- The body calls the name, reaches it through a receiver or constructs it. -/
def Reaches (rules : DependencyRules) (body name : List Char) : Prop :=
  name ∈ namesOf call body ∨
    (∃ access ∈ rules.fieldAccess, name ∈ namesOf (field access.1 access.2) body) ∨
    ∃ written ∈ namesOf construction body, constructed written = name

theorem mem_plainNames {name : String} : name ∈ plainNames rules body ↔
    Reaches rules body name.toList ∧ name ≠ "" ∧ name ∉ rules.ignored := by
  have hkept : ∀ text : List Char, (!text.isEmpty && !oneOfWords rules.ignored text) = true ↔
      String.ofList text ≠ "" ∧ String.ofList text ∉ rules.ignored := fun text => by
    simp [oneOfWords]
  simp only [plainNames, Reaches, List.mem_map, List.mem_filter, List.mem_append, List.mem_flatMap,
    hkept, or_assoc]
  constructor
  · rintro ⟨text, ⟨hfound, htext⟩, rfl⟩
    exact ⟨by rwa [String.toList_ofList], htext⟩
  · rintro ⟨hfound, hname⟩
    exact ⟨name.toList, ⟨hfound, by rwa [String.ofList_toList]⟩, String.ofList_toList⟩

/-- A scoped name shows its scope. -/
theorem colon_mem_of_mem_scopedNames {name : String} (h : name ∈ scopedNames rules body) :
    ':' ∈ name.toList := by
  unfold scopedNames at h
  split at h
  · obtain ⟨found, -, rfl⟩ := List.mem_map.mp h
    simp
  · cases h

/-! ## Two statements -/

/-- The receivers and operators have no semicolon, and the ignored words no colon. -/
structure Apart (rules : DependencyRules) : Prop where
  access : ∀ access ∈ rules.fieldAccess, ';' ∉ access.1.toList ∧ ';' ∉ access.2.toList
  ignored : ∀ word ∈ rules.ignored, ':' ∉ word.toList

theorem apart_java : Apart Java.dependencyRules := ⟨by decide, by decide⟩

theorem apart_cpp : Apart Cpp.dependencyRules := ⟨by decide, by decide⟩

theorem stopsAt_lit {text : String} (h : ';' ∉ text.toList) :
    (Pattern.lit text).stopsAt ';' = true := by
  simpa [Pattern.lit, stopsAt] using h

theorem stopsAt_field {receiver operator : String} (hr : ';' ∉ receiver.toList)
    (ho : ';' ∉ operator.toList) : (field receiver operator).stopsAt ';' = true := by
  show (((((true && _) && true) && _) && true) && true) = true
  rw [stopsAt_lit hr, stopsAt_lit ho]
  rfl

theorem consumes_field (receiver operator : String) : (field receiver operator).consumes = true :=
  Bool.or_eq_true_iff.mpr (.inr rfl)

theorem namesOf_separate {p : Pattern} (hp : p.stopsAt ';' = true) (hc : p.consumes = true)
    (front back : List Char) :
    namesOf p (front ++ ';' :: back) = namesOf p front ++ namesOf p back := by
  rw [namesOf, Pattern.findAll_separate hp hc, List.map_append, List.map_map]
  simp only [Function.comp_def, Match.text_down]
  rfl

theorem scopedNames_separate (rules : DependencyRules) (front back : List Char) :
    scopedNames rules (front ++ ';' :: back) = scopedNames rules front ++ scopedNames rules back := by
  unfold scopedNames
  split
  · rw [Pattern.findAll_separate (p := scopedCall) (by decide) (by decide), List.filter_append,
      List.map_append, List.filter_map, List.map_map]
    simp only [Function.comp_def, Match.text_down]
  · rfl

theorem reaches_separate (h : Apart rules) {name : List Char} :
    Reaches rules (front ++ ';' :: back) name ↔ Reaches rules front name ∨ Reaches rules back name := by
  have hcalls := namesOf_separate (p := call) (by decide) (by decide) front back
  have hconstructions := namesOf_separate (p := construction) (by decide) (by decide) front back
  have hfields : ∀ access ∈ rules.fieldAccess,
      namesOf (field access.1 access.2) (front ++ ';' :: back) =
        namesOf (field access.1 access.2) front ++ namesOf (field access.1 access.2) back :=
    fun access ha => namesOf_separate
      (stopsAt_field (h.access access ha).1 (h.access access ha).2) (consumes_field _ _) _ _
  simp only [Reaches, hcalls, hconstructions, List.mem_append]
  grind

theorem collect_separate (h : Apart rules) (front back : List Char) :
    collect rules (front ++ ';' :: back) = collect rules front ∪ collect rules back := by
  apply NameSet.ext
  intro name
  simp only [collect, NameSet.mem_union, NameSet.mem_ofList, List.mem_append, mem_plainNames,
    scopedNames_separate, reaches_separate h]
  tauto

/-- What is collected is a name, and none that the language ignores. -/
theorem kept_of_mem_collect (h : Apart rules) {name : String} (hname : name ∈ collect rules body) :
    name ≠ "" ∧ name ∉ rules.ignored := by
  rw [collect, NameSet.mem_ofList, List.mem_append, mem_plainNames] at hname
  obtain ⟨-, hkept⟩ | hscoped := hname
  · exact hkept
  · have hcolon := colon_mem_of_mem_scopedNames hscoped
    refine ⟨?_, fun hignored => h.ignored name hignored hcolon⟩
    rintro rfl
    exact absurd hcolon List.not_mem_nil

/-- In Java and in C++ the dependencies of two statements are the union of the dependencies of
each, and every one of them is a name that the language does not ignore. -/
theorem collect_statements (hrules : rules ∈ [Java.dependencyRules, Cpp.dependencyRules]) :
    (∀ front back,
      collect rules (front ++ ';' :: back) = collect rules front ∪ collect rules back) ∧
    ∀ body, ∀ name ∈ collect rules body, name ≠ "" ∧ name ∉ rules.ignored := by
  have h : Apart rules := by
    obtain rfl | hcpp := List.mem_cons.mp hrules
    · exact apart_java
    · exact List.mem_singleton.mp hcpp ▸ apart_cpp
  exact ⟨collect_separate h, fun _ _ => kept_of_mem_collect h⟩

/-- Two statements of C++ with two scoped calls. -/
theorem collect_statements_cpp :
    Cpp.dependencyRules ∈ [Java.dependencyRules, Cpp.dependencyRules] ∧
    collect Cpp.dependencyRules "Util::clamp(x);std::move(p)".toList =
      collect Cpp.dependencyRules "Util::clamp(x)".toList ∪
        collect Cpp.dependencyRules "std::move(p)".toList ∧
    collect Cpp.dependencyRules "Util::clamp(x);std::move(p)".toList =
      NameSet.ofList ["Util::clamp", "clamp", "move"] :=
  ⟨by decide, (collect_statements (by decide)).1 "Util::clamp(x)".toList "std::move(p)".toList,
    by decide +kernel⟩

end Dependency
end Outline
