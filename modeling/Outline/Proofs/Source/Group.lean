import Mathlib.Data.List.Count
import Mathlib.Tactic.MkIffOfInductiveProp
import Outline.Proofs.Source.Balanced
import Outline.Proofs.Source.Closing

/-!
# Groups of delimiters

A group goes from an opening delimiter to the first place behind it up to which as many
delimiters of its kind were closed as were opened.  Delimiters of other kinds do not count,
so groups of two kinds may cross.  In a text without quotes and comments a group is what the
matcher finds.
-/

namespace Outline
namespace Delimiter

open Utf8 (units units_cons units_cons_of_ascii)

/-! ## Groups -/

/-- The bytes from one place to another, both of them included. -/
def within (bytes : List Char) (i j : Nat) : List Char := (bytes.drop i).take (j - i + 1)

/-- A group opens at place `i` and closes at place `j`. -/
@[mk_iff] structure Group (opening closing : Char) (bytes : List Char) (i j : Nat) : Prop where
  opens : bytes[i]? = some opening
  lt : i < j
  closes : bytes[j]? = some closing
  even : (within bytes i j).count closing = (within bytes i j).count opening
  first : ∀ k < j, i < k → (within bytes i k).count closing ≠ (within bytes i k).count opening

instance {opening closing : Char} {bytes : List Char} {i j : Nat} :
    Decidable (Group opening closing bytes i j) :=
  decidable_of_iff' _ (group_iff opening closing bytes i j)

/-- Some delimiters of a list make a group. -/
def IsGroup (pairs : List (Char × Char)) (bytes : List Char) (i j : Nat) : Prop :=
  ∃ pair ∈ pairs, Group pair.1 pair.2 bytes i j

instance {pairs : List (Char × Char)} {bytes : List Char} {i j : Nat} :
    Decidable (IsGroup pairs bytes i j) :=
  inferInstanceAs (Decidable (∃ pair ∈ pairs, Group pair.1 pair.2 bytes i j))

/-- A group that opens between two places closes between them. -/
def Encloses (pairs : List (Char × Char)) (bytes : List Char) (i j : Nat) : Prop :=
  ∀ i' < j, i < i' → ∀ j', IsGroup pairs bytes i' j' → j' < j

/-- From a place on every delimiter that opens is closed, and no two groups cross. -/
structure WellNested (pairs : List (Char × Char)) (bytes : List Char) (start : Nat) : Prop where
  closes : ∀ i, start ≤ i → ∀ pair ∈ pairs, bytes[i]? = some pair.1 →
    ∃ j, Group pair.1 pair.2 bytes i j
  nested : ∀ i j, start ≤ i → IsGroup pairs bytes i j → Encloses pairs bytes i j

section

variable {opening closing : Char} {pairs : List (Char × Char)} {bytes : List Char}
  {i j start : Nat}

/-- What closes a group opens none. -/
theorem closing?_closing {c d : Char} (h : closing? c = some d) : closing? d = none := by
  unfold closing? at h
  split at h <;> cases h <;> rfl

theorem closing?_ascii {c d : Char} (h : closing? c = some d) : c.toNat < 128 := by
  unfold closing? at h
  split at h <;> cases h <;> decide

theorem lt_length_of_getElem? {c : Char} (h : bytes[i]? = some c) : i < bytes.length :=
  (List.getElem?_eq_some_iff.mp h).1

theorem IsGroup.lt (h : IsGroup pairs bytes i j) : i < j := by
  obtain ⟨pair, -, hgroup⟩ := h
  exact hgroup.lt

theorem IsGroup.lt_length (h : IsGroup pairs bytes i j) : j < bytes.length := by
  obtain ⟨pair, -, hgroup⟩ := h
  exact lt_length_of_getElem? hgroup.closes

theorem encloses_iff : Encloses pairs bytes i j ↔
    ∀ i' < j, i < i' → ∀ j' < bytes.length, IsGroup pairs bytes i' j' → j' < j :=
  ⟨fun h i' hlt hi' j' _ hj' => h i' hlt hi' j' hj',
    fun h i' hlt hi' j' hj' => h i' hlt hi' j' hj'.lt_length hj'⟩

instance : Decidable (Encloses pairs bytes i j) := decidable_of_iff' _ encloses_iff

/-- Groups stand within the text, so it can be decided whether they are nested well. -/
theorem wellNested_iff : WellNested pairs bytes start ↔
    (∀ i < bytes.length, start ≤ i → ∀ pair ∈ pairs, bytes[i]? = some pair.1 →
      ∃ j < bytes.length, Group pair.1 pair.2 bytes i j) ∧
    ∀ i < bytes.length, start ≤ i → ∀ j < bytes.length, IsGroup pairs bytes i j →
      Encloses pairs bytes i j := by
  constructor
  · intro h
    refine ⟨fun i _ hi pair hpair hopens => ?_, fun i _ hi j _ hj => h.nested i j hi hj⟩
    obtain ⟨j, hj⟩ := h.closes i hi pair hpair hopens
    exact ⟨j, lt_length_of_getElem? hj.closes, hj⟩
  · rintro ⟨hcloses, hnested⟩
    refine ⟨fun i hi pair hpair hopens => ?_, fun i j hi hj =>
      hnested i (Nat.lt_trans hj.lt hj.lt_length) hi j hj.lt_length hj⟩
    obtain ⟨j, -, hj⟩ := hcloses i (lt_length_of_getElem? hopens) hi pair hpair hopens
    exact ⟨j, hj⟩

instance : Decidable (WellNested pairs bytes start) := decidable_of_iff' _ wellNested_iff

/-! ## The matcher -/

/-- The bytes of a text without quotes and comments make such a text. -/
theorem isBare_units {text : List Char} (h : Text.isBare text = true) :
    Text.isBare (units text) = true := by
  induction text with
  | nil => rfl
  | cons c text ih =>
    obtain ⟨hquote, hmark, hcomment, hrest⟩ := Text.isBare_cons.mp h
    by_cases hc : c.toNat < 128
    · rw [units_cons_of_ascii hc]
      refine Text.isBare_cons.mpr ⟨hquote, hmark, fun hmarks => hcomment ⟨hmarks.1, ?_⟩, ih hrest⟩
      exact hmarks.2.imp (Utf8.head?_units_eq_some (by decide) text).mp
        (Utf8.head?_units_eq_some (by decide) text).mp
    · rw [units_cons]
      refine Text.isBare_append_of_forall (fun u hu => ?_) (ih hrest)
      have hwide := Utf8.le_of_mem_unitsOf (Nat.le_of_not_lt hc) u hu
      exact ⟨ne_of_wide hwide (by decide), ne_of_wide hwide (by decide),
        ne_of_wide hwide (by decide)⟩

/-- All of such a text is code. -/
theorem codeOf_of_isBare (h : Text.isBare bytes = true) : codeOf bytes = bytes.map some := by
  induction bytes with
  | nil => exact List.zipWith_nil_right
  | cons c bytes ih =>
    obtain ⟨hquote, hmark, hcomment, hrest⟩ := Text.isBare_cons.mp h
    have hparts : parts (c :: bytes) = .code :: parts bytes := by
      rw [parts, if_neg (by simp [hquote, hmark]),
        if_neg fun hline => hcomment ⟨hline.1, .inl hline.2⟩,
        if_neg fun hblock => hcomment ⟨hblock.1, .inr hblock.2⟩]
    rw [codeOf, hparts, List.zipWith_cons_cons, if_pos rfl, List.map_cons, ← ih hrest, codeOf]

/-- The depth behind a stretch of code, from the delimiters in it. -/
theorem level_eq_zero_iff (h : Text.isBare bytes = true) (i j : Nat) :
    level opening closing (codeOf (bytes.drop i)) (j - i + 1) = 0 ↔
      (within bytes i j).count closing = (within bytes i j).count opening := by
  have hdrop : Text.isBare (bytes.drop i) = true := by
    rw [← List.take_append_drop i bytes] at h
    exact Text.isBare_of_append h
  rw [level, codeOf_of_isBare hdrop, ← List.map_take,
    List.count_map_of_injective _ _ (Option.some_injective _),
    List.count_map_of_injective _ _ (Option.some_injective _), within]
  omega

/-- The matcher finds the end of a group. -/
theorem Group.find_eq {text : List Char} (h : Group opening closing (units text) i j)
    (hbare : Text.isBare text = true) (hd : closing? opening = some closing) :
    find text i = ⟨j, true⟩ := by
  have hlevel := fun k => @level_eq_zero_iff opening closing _ (isBare_units hbare) i k
  have hzero := (hlevel j).mpr h.even
  rcases find_of_opening hd h.opens with ⟨n, hpos, hfind, -, hend, hbefore⟩ | ⟨-, hbefore⟩
  · have hle : i + n ≤ j := by
      by_contra hlt
      have hpositive := hbefore (j - i + 1) (Nat.succ_pos _) (by omega)
      omega
    have hge : ¬ i + n < j := fun hlt => by
      refine h.first (i + n) hlt (by omega) ((hlevel (i + n)).mp ?_)
      rwa [Nat.add_sub_cancel_left]
    rw [hfind, show i + n = j by omega]
  · have hpositive := hbefore (j - i + 1) (Nat.succ_pos _)
    omega

/-- A delimiter in code has its match from its own place on. -/
theorem closeOf?_eq_some {before rest : List Char} {c : Char} {close : Nat}
    (hc : closing? c ≠ none)
    (h : find (before ++ c :: rest) (Text.width before) = ⟨close, true⟩) :
    closeOf? (Text.width before) (c :: rest) = some close := by
  rw [find, Text.dropWidth?_width_append] at h
  dsimp only at h
  rw [if_neg (by simpa using hc)] at h
  split at h
  · next hclose => rw [hclose, (Match.mk.inj h).1]
  · exact absurd (Match.mk.inj h).2 (by decide)

/-- Where every group closes, a delimiter that opens one is matched where it closes. -/
theorem WellNested.exists_close {before rest : List Char} {c d : Char}
    (h : WellNested pairs (units (before ++ c :: rest)) start)
    (hbare : Text.isBare (before ++ c :: rest) = true) (hle : start ≤ Text.width before)
    (hpair : (c, d) ∈ pairs) (hd : closing? c = some d) :
    ∃ close, Group c d (units (before ++ c :: rest)) (Text.width before) close ∧
      closeOf? (Text.width before) (c :: rest) = some close := by
  obtain ⟨close, hgroup⟩ :=
    h.closes _ hle (c, d) hpair (Utf8.getElem?_units_width (closing?_ascii hd))
  refine ⟨close, hgroup, closeOf?_eq_some ?_ (hgroup.find_eq hbare hd)⟩
  rw [hd]
  exact Option.some_ne_none d

end

/-! ## Outside of groups -/

/-- A place is outside of every group that opens from `start` on. -/
def Outside (pairs : List (Char × Char)) (bytes : List Char) (start e : Nat) : Prop :=
  ∀ i j, start ≤ i → IsGroup pairs bytes i j → ¬ (i ≤ e ∧ e ≤ j)

section

variable {pairs pairs' : List (Char × Char)} {bytes : List Char} {start start' i j e : Nat}

theorem outside_iff : Outside pairs bytes start e ↔
    ∀ i ≤ e, start ≤ i → ∀ j < bytes.length, e ≤ j → ¬ IsGroup pairs bytes i j :=
  ⟨fun h i hi hle j _ hj hgroup => h i j hle hgroup ⟨hi, hj⟩,
    fun h i j hle hgroup hin => h i hin.1 hle j hgroup.lt_length hin.2 hgroup⟩

instance : Decidable (Outside pairs bytes start e) := decidable_of_iff' _ outside_iff

theorem IsGroup.of_subset (h : IsGroup pairs bytes i j) (hsub : pairs ⊆ pairs') :
    IsGroup pairs' bytes i j := by
  obtain ⟨pair, hpair, hgroup⟩ := h
  exact ⟨pair, hsub hpair, hgroup⟩

/-- Outside of the groups of more kinds is outside of those of fewer. -/
theorem Outside.of_subset (h : Outside pairs' bytes start e) (hsub : pairs ⊆ pairs') :
    Outside pairs bytes start e :=
  fun i j hi hgroup => h i j hi (hgroup.of_subset hsub)

theorem Outside.of_le (h : Outside pairs bytes start e) (hle : start ≤ start') :
    Outside pairs bytes start' e :=
  fun i j hi => h i j (Nat.le_trans hle hi)

theorem WellNested.of_le (h : WellNested pairs bytes start) (hle : start ≤ start') :
    WellNested pairs bytes start' :=
  ⟨fun i hi => h.closes i (Nat.le_trans hle hi), fun i j hi => h.nested i j (Nat.le_trans hle hi)⟩

theorem WellNested.of_subset (h : WellNested pairs' bytes start) (hsub : pairs ⊆ pairs') :
    WellNested pairs bytes start := by
  refine ⟨fun i hi pair hpair => h.closes i hi pair (hsub hpair), ?_⟩
  intro i j hi hgroup i' hlt hi' j' hgroup'
  exact h.nested i j hi (hgroup.of_subset hsub) i' hlt hi' j' (hgroup'.of_subset hsub)

/-- Places at which no group opens make no difference. -/
theorem Outside.of_none_opens (h : Outside pairs bytes start' e)
    (hnone : ∀ b, start ≤ b → b < start' → ∀ pair ∈ pairs, bytes[b]? ≠ some pair.1) :
    Outside pairs bytes start e := by
  intro i j hi hgroup
  rcases Nat.lt_or_ge i start' with hlt | hge
  · obtain ⟨pair, hpair, hgroup⟩ := hgroup
    exact absurd hgroup.opens (hnone i hi hlt pair hpair)
  · exact h i j hge hgroup

/-- A place at which no group opens is outside of all that open from there on. -/
theorem outside_self (h : ∀ pair ∈ pairs, bytes[start]? ≠ some pair.1) :
    Outside pairs bytes start start := by
  rintro i j hi ⟨pair, hpair, hgroup⟩ ⟨hle, -⟩
  obtain rfl := Nat.le_antisymm hle hi
  exact h pair hpair hgroup.opens

/-- Two groups of one kind that open at one place close at one place. -/
theorem Group.end_eq {opening closing : Char} {j' : Nat} (h : Group opening closing bytes i j)
    (h' : Group opening closing bytes i j') : j = j' := by
  rcases Nat.lt_trichotomy j j' with hlt | heq | hgt
  · exact absurd h.even (h'.first j hlt h.lt)
  · exact heq
  · exact absurd h'.even (h.first j' hgt h'.lt)

/-- The groups of delimiters are told apart by what opens them. -/
theorem IsGroup.end_eq (hd : ∀ pair ∈ pairs, closing? pair.1 = some pair.2) {j' : Nat}
    (h : IsGroup pairs bytes i j) (h' : IsGroup pairs bytes i j') : j = j' := by
  obtain ⟨pair, hpair, hgroup⟩ := h
  obtain ⟨pair', hpair', hgroup'⟩ := h'
  have hopening : pair'.1 = pair.1 := Option.some.inj (hgroup'.opens.symm.trans hgroup.opens)
  have hclosing : pair'.2 = pair.2 := by
    refine Option.some.inj ((hd pair' hpair').symm.trans ?_)
    rw [hopening, hd pair hpair]
  rw [hopening, hclosing] at hgroup'
  exact hgroup.end_eq hgroup'

/-- No group opens where one closes. -/
theorem IsGroup.not_opens (hd : ∀ pair ∈ pairs, closing? pair.1 = some pair.2) {j' : Nat}
    (h : IsGroup pairs bytes i j) : ¬ IsGroup pairs bytes j j' := by
  rintro ⟨pair', hpair', hgroup'⟩
  obtain ⟨pair, hpair, hgroup⟩ := h
  have hsame : pair'.1 = pair.2 := Option.some.inj (hgroup'.opens.symm.trans hgroup.closes)
  have hnone := closing?_closing (hd pair hpair)
  rw [← hsame, hd pair' hpair'] at hnone
  exact Option.some_ne_none _ hnone

/-- A group that opens in another one, its delimiters included, closes in it. -/
theorem Encloses.close_le (hin : Encloses pairs bytes i j)
    (hd : ∀ pair ∈ pairs, closing? pair.1 = some pair.2) (h : IsGroup pairs bytes i j)
    {i' j' : Nat} (hi : i ≤ i') (hle : i' ≤ j) (h' : IsGroup pairs bytes i' j') : j' ≤ j := by
  rcases Nat.lt_or_eq_of_le hle with hlt | rfl
  · rcases Nat.lt_or_eq_of_le hi with hopens | rfl
    · exact Nat.le_of_lt (hin i' hlt hopens j' h')
    · exact Nat.le_of_eq (IsGroup.end_eq hd h' h)
  · exact absurd h' (h.not_opens hd)

/-- A group that holds what opens in it makes no difference behind it. -/
theorem Outside.of_behind (h : Outside pairs bytes (j + 1) e)
    (hd : ∀ pair ∈ pairs, closing? pair.1 = some pair.2) (hgroup : IsGroup pairs bytes i j)
    (hin : Encloses pairs bytes i j) (hlt : j < e) : Outside pairs bytes i e := by
  intro i' j' hi hgroup' hwithin
  rcases Nat.lt_or_ge j i' with hbehind | hle
  · exact h i' j' hbehind hgroup' hwithin
  · have hclose := hin.close_le hd hgroup hi hle hgroup'
    omega

end

end Delimiter
end Outline
