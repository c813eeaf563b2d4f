import Mathlib.Data.List.Induction
import Outline.Extraction.Registry

/-!
# Which extractor a registry finds

A registry is built by registering extractors one after another.  Each of its two
tables lists the keys of the latest extractor first, so looking up a key gives the
latest extractor that has it, whatever the earlier ones have.
-/

namespace Outline

namespace Extractor

/-- Whether a text is the id or an alias, in any case. -/
def answersTo (extractor : Extractor) (name : List Char) : Bool :=
  extractor.names.any fun known => lower known.toList == lower name

end Extractor

namespace Registry

/-- The registry after extractors are registered in this order. -/
def ofList (extractors : List Extractor) : Registry := extractors.foldl register empty

theorem ofList_concat (extractors : List Extractor) (extractor : Extractor) :
    ofList (extractors ++ [extractor]) = (ofList extractors).register extractor := by
  rw [ofList, List.foldl_append]
  rfl

/-- Of some extractors, this is the latest one with a property. -/
def IsLatest (has : Extractor → Bool) (extractors : List Extractor) (extractor : Extractor) :
    Prop :=
  ∃ earlier later, extractors = earlier ++ extractor :: later ∧ has extractor = true ∧
    ∀ other ∈ later, has other = false

theorem find?_reverse_eq_some_iff {has : Extractor → Bool} {extractors : List Extractor}
    {extractor : Extractor} :
    extractors.reverse.find? has = some extractor ↔ IsLatest has extractors extractor := by
  rw [List.find?_eq_some_iff_append]
  constructor
  · rintro ⟨hhas, later, earlier, heq, hlater⟩
    refine ⟨earlier.reverse, later.reverse, ?_, hhas, fun other hother => ?_⟩
    · rw [← List.reverse_reverse extractors, heq, List.reverse_append, List.reverse_cons,
        List.append_assoc, List.singleton_append]
    · simpa using hlater other (List.mem_reverse.mp hother)
  · rintro ⟨earlier, later, rfl, hhas, hlater⟩
    refine ⟨hhas, later.reverse, earlier.reverse, ?_, fun other hother => ?_⟩
    · rw [List.reverse_append, List.reverse_cons, List.append_assoc, List.singleton_append]
    · simpa using hlater other (List.mem_reverse.mp hother)

theorem find?_reverse_eq_none_iff {has : Extractor → Bool} {extractors : List Extractor} :
    extractors.reverse.find? has = none ↔ ∀ extractor ∈ extractors, has extractor = false := by
  simp

/-! ## The tables -/

/-- The entries of one extractor hide what a table had for its keys, and nothing else. -/
theorem lookup_entries (keys : List String) (extractor : Extractor)
    (table : List (List Char × Extractor)) (key : List Char) :
    (keys.map (fun known => (Extractor.lower known.toList, extractor)) ++ table).lookup key =
      if keys.any (fun known => Extractor.lower known.toList == key) then some extractor
      else table.lookup key := by
  induction keys with
  | nil => rfl
  | cons known keys ih =>
    rw [List.map_cons, List.cons_append, List.any_cons, List.lookup_cons]
    by_cases hknown : Extractor.lower known.toList = key
    · simp [hknown]
    · have hne : (key == Extractor.lower known.toList) = false := beq_false_of_ne (Ne.symm hknown)
      rw [hne, ih, beq_false_of_ne hknown, Bool.false_or]

theorem find?_reverse_concat (has : Extractor → Bool) (extractors : List Extractor)
    (extractor : Extractor) :
    (extractors ++ [extractor]).reverse.find? has =
      if has extractor then some extractor else extractors.reverse.find? has := by
  rw [List.reverse_append, List.reverse_singleton, List.singleton_append, List.find?_cons]
  cases has extractor <;> rfl

theorem byName_lookup (extractors : List Extractor) (name : List Char) :
    (ofList extractors).byName.lookup (Extractor.lower name) =
      extractors.reverse.find? (·.answersTo name) := by
  induction extractors using List.reverseRecOn with
  | nil => rfl
  | append_singleton extractors extractor ih =>
    rw [ofList_concat, find?_reverse_concat, ← ih]
    exact lookup_entries extractor.names extractor _ _

theorem byExtension_lookup (extractors : List Extractor) (extension : List Char) :
    (ofList extractors).byExtension.lookup (Extractor.lower extension) =
      extractors.reverse.find? (·.handles extension) := by
  induction extractors using List.reverseRecOn with
  | nil => rfl
  | append_singleton extractors extractor ih =>
    rw [ofList_concat, find?_reverse_concat, ← ih]
    exact lookup_entries extractor.extensions extractor _ _

theorem extractors_ofList (extractors : List Extractor) :
    (ofList extractors).extractors = extractors := by
  induction extractors using List.reverseRecOn with
  | nil => rfl
  | append_singleton extractors extractor ih =>
    rw [ofList_concat, register, ih]

/-! ## Lookups -/

theorem get_ofList_eq_ok_iff {extractors : List Extractor} {query : List Char}
    {extractor : Extractor} :
    (ofList extractors).get query = .ok extractor ↔
      IsLatest (·.answersTo (Text.trim query)) extractors extractor := by
  rw [get, byName_lookup, ← find?_reverse_eq_some_iff]
  cases extractors.reverse.find? (·.answersTo (Text.trim query)) <;> simp

theorem get_ofList_eq_error_iff {extractors : List Extractor} {query : List Char}
    {cause : LookupError} :
    (ofList extractors).get query = .error cause ↔
      cause = .unsupportedLanguage (String.ofList query) ∧
        ∀ extractor ∈ extractors, extractor.answersTo (Text.trim query) = false := by
  rw [get, byName_lookup, ← find?_reverse_eq_none_iff]
  cases extractors.reverse.find? (·.answersTo (Text.trim query)) <;> simp [eq_comm]

theorem forExtension_ofList_eq_ok_iff {extractors : List Extractor} {query : List Char}
    {extractor : Extractor} :
    (ofList extractors).forExtension query = .ok extractor ↔
      IsLatest (·.handles (query.dropWhile (· == '.'))) extractors extractor := by
  rw [forExtension, byExtension_lookup, ← find?_reverse_eq_some_iff]
  cases extractors.reverse.find? (·.handles (query.dropWhile (· == '.'))) <;> simp

theorem forExtension_ofList_eq_error_iff {extractors : List Extractor} {query : List Char}
    {cause : LookupError} :
    (ofList extractors).forExtension query = .error cause ↔
      cause = .unsupportedExtension (String.ofList query) ∧
        ∀ extractor ∈ extractors, extractor.handles (query.dropWhile (· == '.')) = false := by
  rw [forExtension, byExtension_lookup, ← find?_reverse_eq_none_iff]
  cases extractors.reverse.find? (·.handles (query.dropWhile (· == '.'))) <;> simp [eq_comm]

/-- After any registrations, a name and an extension lead to the latest extractor that has
them.  Where no extractor does, the lookup fails and reports the text as it was asked for.
The list of languages has one item for each registration. -/
theorem latest_registration_wins (extractors : List Extractor) (query : List Char) :
    (∀ extractor, (ofList extractors).get query = .ok extractor ↔
      IsLatest (·.answersTo (Text.trim query)) extractors extractor) ∧
    (∀ cause, (ofList extractors).get query = .error cause ↔
      cause = .unsupportedLanguage (String.ofList query) ∧
        ∀ extractor ∈ extractors, extractor.answersTo (Text.trim query) = false) ∧
    (∀ extractor, (ofList extractors).forExtension query = .ok extractor ↔
      IsLatest (·.handles (query.dropWhile (· == '.'))) extractors extractor) ∧
    (∀ cause, (ofList extractors).forExtension query = .error cause ↔
      cause = .unsupportedExtension (String.ofList query) ∧
        ∀ extractor ∈ extractors, extractor.handles (query.dropWhile (· == '.')) = false) ∧
    (ofList extractors).languages = extractors.map (·.id) := by
  refine ⟨fun _ => get_ofList_eq_ok_iff, fun _ => get_ofList_eq_error_iff,
    fun _ => forExtension_ofList_eq_ok_iff, fun _ => forExtension_ofList_eq_error_iff, ?_⟩
  rw [languages, extractors_ofList]

end Registry
end Outline
