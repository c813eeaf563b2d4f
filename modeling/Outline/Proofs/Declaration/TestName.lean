import Mathlib.Data.List.DropRight
import Outline.Declaration.TestName
import Outline.Proofs.Text.Boundary

/-!
# Test names are told apart

The words of a case come last in a test name, and the words of no case end with those of another.
So the test names of a declaration differ from each other, and with underscores a test name tells
the part of an identifier that the name of the declaration was reduced to.
-/

namespace Outline
namespace TestName

/-! ## The part of an identifier -/

theorem isPlain_of_mem_plainFrom {last : Option Char} {name : List Char} :
    ∀ c ∈ plainFrom last name, isPlain c = true := by
  induction name generalizing last with
  | nil => exact nofun
  | cons c rest ih =>
    rw [plainFrom]
    split
    · next hc => exact List.forall_mem_cons.mpr ⟨hc, ih⟩
    · split
      · exact ih
      · exact List.forall_mem_cons.mpr ⟨rfl, ih⟩

/-- Plain characters are kept, underscores among them. -/
theorem plainFrom_eq_self {last : Option Char} {name : List Char}
    (h : ∀ c ∈ name, isPlain c = true) : plainFrom last name = name := by
  induction name generalizing last with
  | nil => rfl
  | cons c rest ih =>
    obtain ⟨hc, hrest⟩ := List.forall_mem_cons.mp h
    rw [plainFrom, if_pos hc, ih hrest]

theorem trimUnderscores_eq (name : List Char) :
    trimUnderscores name = (name.dropWhile (· == '_')).rdropWhile (· == '_') := rfl

theorem mem_of_mem_trimUnderscores {name : List Char} {c : Char}
    (h : c ∈ trimUnderscores name) : c ∈ name :=
  (List.dropWhile_sublist _).subset ((List.rdropWhile_prefix _ _).subset h)

/-- What is left starts with no underscore, so none is left out once more. -/
theorem dropWhile_trimUnderscores (name : List Char) :
    (trimUnderscores name).dropWhile (· == '_') = trimUnderscores name := by
  obtain ⟨more, hmore⟩ := List.rdropWhile_prefix (· == '_') (name.dropWhile (· == '_'))
  rw [← trimUnderscores_eq] at hmore
  cases htrim : trimUnderscores name with
  | nil => rfl
  | cons c rest =>
    have hfirst := List.head?_dropWhile_not (· == '_') name
    rw [← hmore, htrim] at hfirst
    exact List.dropWhile_cons_of_neg (Bool.not_eq_true _ ▸ hfirst)

theorem trimUnderscores_idem (name : List Char) :
    trimUnderscores (trimUnderscores name) = trimUnderscores name := by
  rw [trimUnderscores_eq (trimUnderscores name), dropWhile_trimUnderscores, trimUnderscores_eq,
    List.rdropWhile_idempotent]

theorem isPlain_of_mem_sanitize (name : List Char) : ∀ c ∈ sanitize name, isPlain c = true := by
  rw [sanitize]
  split
  · decide
  · exact fun c hc => isPlain_of_mem_plainFrom c (mem_of_mem_trimUnderscores hc)

/-- A name that is reduced already stays as it is. -/
theorem sanitize_idem (name : List Char) : sanitize (sanitize name) = sanitize name := by
  rw [sanitize.eq_def (sanitize name), plainFrom_eq_self (isPlain_of_mem_sanitize name)]
  rw [sanitize]
  split
  · rfl
  · next hne => rw [trimUnderscores_idem, if_neg hne]

/-! ## The words of a case -/

/-- The words of all cases. -/
def allCases : List (List String) :=
  [["success"], ["invalid", "parameters"], ["null", "parameters"],
    ["returns", "expected", "value"], ["updates", "value"],
    ["returns", "true", "when", "condition", "met"],
    ["returns", "false", "when", "condition", "not", "met"]]

theorem cases_sublist (name : List Char) (parameters : Nat) :
    (cases name parameters).Sublist allCases := by
  rw [cases]
  split <;> split <;> decide

theorem nodup_cases (name : List Char) (parameters : Nat) : (cases name parameters).Nodup :=
  (cases_sublist name parameters).nodup (by decide)

/-- What stands in front of the words of a case. -/
def lead (style : TestStyle) (name : List Char) : List Char :=
  match style with
  | .camel => "test".toList ++ capitalize name
  | .snake => "test_".toList ++ name

/-- The words of a case at the end of a name. -/
def ending (style : TestStyle) (words : List String) : List Char :=
  match style with
  | .camel => (words.map String.toList).flatMap capitalize
  | .snake => '_' :: Text.join ['_'] (words.map String.toList)

theorem spell_eq (style : TestStyle) (name : List Char) (words : List String) :
    spell style name words = lead style name ++ ending style words := by
  cases style with
  | camel => rfl
  | snake => exact List.append_assoc ("test_".toList ++ name) ['_'] _

/-- No case ends with another. -/
theorem eq_of_ending_suffix (style : TestStyle) : ∀ words ∈ allCases, ∀ words' ∈ allCases,
    ending style words <:+ ending style words' → words = words' := by
  cases style <;> decide

/-- So a test name can be cut in one way only. -/
theorem spell_inj {style : TestStyle} {name name' : List Char} {words words' : List String}
    (hw : words ∈ allCases) (hw' : words' ∈ allCases)
    (h : spell style name words = spell style name' words') :
    lead style name = lead style name' ∧ words = words' := by
  rw [spell_eq, spell_eq] at h
  have heq : words = words' := by
    have hsuffix := List.suffix_append (lead style name) (ending style words)
    rw [h] at hsuffix
    rcases List.suffix_or_suffix_of_suffix hsuffix (List.suffix_append _ _) with hle | hle
    · exact eq_of_ending_suffix style words hw words' hw' hle
    · exact (eq_of_ending_suffix style words' hw' words hw hle).symm
  subst heq
  exact ⟨List.append_cancel_right h, rfl⟩

/-- A capital letter is as plain as the small one. -/
theorem isPlain_toUpper {c : Char} (h : isPlain c = true) : isPlain c.toUpper = true := by
  by_cases hsmall : 'a'.val ≤ c.val ∧ c.val ≤ 'z'.val
  · have hlow : 97 ≤ c.toNat := UInt32.le_iff_toNat_le.mp hsmall.1
    have hhigh : c.toNat ≤ 122 := UInt32.le_iff_toNat_le.mp hsmall.2
    have hall : ∀ n < 26, isPlain (Char.ofNat (97 + n)).toUpper = true := by decide
    have hc := hall (c.toNat - 97) (by omega)
    rwa [Nat.add_sub_cancel' hlow, Char.ofNat_toNat] at hc
  · have hsame : c.toUpper = c := dif_neg hsmall
    rwa [hsame]

theorem isPlain_of_mem_capitalize {word : List Char} (h : ∀ c ∈ word, isPlain c = true) :
    ∀ c ∈ capitalize word, isPlain c = true := by
  cases word with
  | nil => exact nofun
  | cons c rest =>
    obtain ⟨hc, hrest⟩ := List.forall_mem_cons.mp h
    exact List.forall_mem_cons.mpr ⟨isPlain_toUpper hc, hrest⟩

theorem isPlain_of_mem_lead (style : TestStyle) {name : List Char}
    (h : ∀ c ∈ name, isPlain c = true) : ∀ c ∈ lead style name, isPlain c = true := by
  cases style with
  | camel => exact List.forall_mem_append.mpr ⟨by decide, isPlain_of_mem_capitalize h⟩
  | snake => exact List.forall_mem_append.mpr ⟨by decide, h⟩

theorem isPlain_of_mem_ending (style : TestStyle) : ∀ words ∈ allCases,
    ∀ c ∈ ending style words, isPlain c = true := by
  cases style <;> decide

theorem test_prefix_spell (style : TestStyle) (name : List Char) (words : List String) :
    "test".toList <+: spell style name words := by
  rw [spell_eq]
  cases style with
  | camel => exact ⟨_, (List.append_assoc ..).symm⟩
  | snake => exact ⟨'_' :: (name ++ ending .snake words), rfl⟩

/-! ## The candidates -/

theorem mem_candidates_iff {style : TestStyle} {name : List Char} {parameters : Nat}
    {text : String} : text ∈ candidates style name parameters ↔
      ∃ words ∈ cases (sanitize name) parameters,
        text.toList = spell style (sanitize name) words := by
  rw [candidates, List.mem_map]
  constructor
  · rintro ⟨words, hw, rfl⟩
    exact ⟨words, hw, String.toList_ofList⟩
  · rintro ⟨words, hw, htext⟩
    exact ⟨words, hw, by rw [← htext, String.ofList_toList]⟩

theorem nodup_candidates (style : TestStyle) (name : List Char) (parameters : Nat) :
    (candidates style name parameters).Nodup := by
  refine List.pairwise_map.mpr ((nodup_cases _ _).imp_of_mem fun {words words'} hw hw' hne heq => ?_)
  have hwords := (cases_sublist (sanitize name) parameters).subset
  exact hne (spell_inj (hwords hw) (hwords hw') (String.ofList_injective heq)).2

theorem isPlain_of_mem_candidates {style : TestStyle} {name : List Char} {parameters : Nat}
    {text : String} (h : text ∈ candidates style name parameters) :
    ∀ c ∈ text.toList, isPlain c = true := by
  obtain ⟨words, hw, htext⟩ := mem_candidates_iff.mp h
  rw [htext, spell_eq]
  exact List.forall_mem_append.mpr ⟨isPlain_of_mem_lead style (isPlain_of_mem_sanitize name),
    isPlain_of_mem_ending style words ((cases_sublist _ _).subset hw)⟩

theorem test_prefix_of_mem_candidates {style : TestStyle} {name : List Char} {parameters : Nat}
    {text : String} (h : text ∈ candidates style name parameters) :
    "test".toList <+: text.toList := by
  obtain ⟨words, -, htext⟩ := mem_candidates_iff.mp h
  rw [htext]
  exact test_prefix_spell style _ words

/-- Every declaration has a test of its success. -/
theorem success_mem_candidates (style : TestStyle) (name : List Char) (parameters : Nat) :
    String.ofList (spell style (sanitize name) ["success"]) ∈ candidates style name parameters :=
  List.mem_map_of_mem (List.mem_append_left _ (List.mem_append_left _ List.mem_cons_self))

/-- A test name with underscores tells what the name of its declaration is reduced to. -/
theorem sanitize_eq_of_mem {name other : List Char} {parameters parameters' : Nat} {text : String}
    (h : text ∈ candidates .snake name parameters)
    (h' : text ∈ candidates .snake other parameters') : sanitize name = sanitize other := by
  obtain ⟨words, hw, htext⟩ := mem_candidates_iff.mp h
  obtain ⟨words', hw', htext'⟩ := mem_candidates_iff.mp h'
  obtain ⟨hlead, -⟩ := spell_inj ((cases_sublist _ _).subset hw) ((cases_sublist _ _).subset hw')
    (htext.symm.trans htext')
  exact List.append_cancel_left hlead

/-- The test names of a declaration are different identifiers that start with `test`, and those of
the part of an identifier that its name is reduced to.  With underscores two declarations share a
test name only when their names are reduced to the same part, whatever their parameters. -/
theorem candidates_told_apart (style : TestStyle) (name : List Char) (parameters : Nat) :
    (candidates style name parameters).Nodup ∧
    (∀ text ∈ candidates style name parameters, text ≠ "" ∧ "test".toList <+: text.toList ∧
      ∀ c ∈ text.toList, c.isAlphanum = true ∨ c = '_') ∧
    candidates style (sanitize name) parameters = candidates style name parameters ∧
    ∀ (other : List Char) (parameters' : Nat),
      (∃ text, text ∈ candidates .snake name parameters ∧
        text ∈ candidates .snake other parameters') ↔ sanitize name = sanitize other := by
  refine ⟨nodup_candidates style name parameters, fun text htext => ?_, ?_,
    fun other parameters' => ⟨?_, fun heq => ?_⟩⟩
  · have htest := test_prefix_of_mem_candidates htext
    refine ⟨?_, htest, fun c hc => ?_⟩
    · rintro rfl
      exact absurd htest (by decide)
    · simpa [isPlain] using isPlain_of_mem_candidates htext c hc
  · rw [candidates, sanitize_idem]
    rfl
  · rintro ⟨text, htext, htext'⟩
    exact sanitize_eq_of_mem htext htext'
  · refine ⟨_, success_mem_candidates .snake name parameters, ?_⟩
    rw [heq]
    exact success_mem_candidates .snake other parameters'

end TestName
end Outline
