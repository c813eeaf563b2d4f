import Mathlib.Order.Nat
import Outline.Proofs.Extraction.StatementEnd

/-!
# Where a body opens

The reader of a head steps over parentheses as a whole and takes angle brackets for
characters like any other.  So the first brace or semicolon outside of all parentheses
decides.  The answer is the one for parentheses and angle brackets together, except where
that mark stands between angle brackets and is an opening brace or keeps one from being
found.
-/

namespace Outline

open Utf8 (units)

namespace Statement

open Delimiter (Encloses IsGroup Outside WellNested)

/-- The groups that the reader of a head steps over. -/
def parenPairs : List (Char × Char) := [('(', ')')]

/-- The groups that a head may hold. -/
def headPairs : List (Char × Char) := [('(', ')'), ('<', '>')]

/-- Whether a character opens a body or ends a statement or a block. -/
def IsMark (c : Char) : Prop := c = '\x7b' ∨ IsEnd c

instance : DecidablePred IsMark := fun c => inferInstanceAs (Decidable (c = '\x7b' ∨ IsEnd c))

/-- A character of some kind stands at a place, outside of every group that opens from `start`
on. -/
@[mk_iff] structure Stands (pairs : List (Char × Char)) (p : Char → Prop) (bytes : List Char)
    (start e : Nat) : Prop where
  start_le : start ≤ e
  char : ∃ c ∈ bytes[e]?, p c
  outside : Outside pairs bytes start e

instance {pairs : List (Char × Char)} {p : Char → Prop} [DecidablePred p] {bytes : List Char}
    {start e : Nat} : Decidable (Stands pairs p bytes start e) :=
  -- by the one character at the place, and not by a search through all characters
  have : Decidable (∃ c ∈ bytes[e]?, p c) := Option.decidableExistsMem _
  decidable_of_iff' _ (stands_iff pairs p bytes start e)

/-- Where a body opens, if one does: at the first opening brace outside of groups, unless a
semicolon or closing brace stands outside of groups in front of it, or there is no such brace. -/
inductive BodyOpens (pairs : List (Char × Char)) (bytes : List Char) (start : Nat) :
    Option Nat → Prop
  | opens {e : Nat} (first : IsLeast {e | Stands pairs (· = '\x7b') bytes start e} e)
      (live : ∀ k, Stands pairs IsEnd bytes start k → e < k) : BodyOpens pairs bytes start (some e)
  | ended {k : Nat} (mark : Stands pairs IsEnd bytes start k)
      (first : ∀ e, Stands pairs (· = '\x7b') bytes start e → k < e) :
      BodyOpens pairs bytes start none
  | lacks (nowhere : ∀ e, ¬ Stands pairs (· = '\x7b') bytes start e) :
      BodyOpens pairs bytes start none

/-! ## The first mark -/

/-- The first mark outside of groups. -/
def FirstMark (pairs : List (Char × Char)) (bytes : List Char) (start m : Nat) : Prop :=
  IsLeast {m | Stands pairs IsMark bytes start m} m

section

variable {pairs pairs' : List (Char × Char)} {p q : Char → Prop} {bytes : List Char}
  {start start' e m j : Nat}

theorem Stands.imp (h : Stands pairs p bytes start e) (hpq : ∀ c, p c → q c) :
    Stands pairs q bytes start e := by
  obtain ⟨c, hc, hp⟩ := h.char
  exact ⟨h.start_le, ⟨c, hc, hpq c hp⟩, h.outside⟩

theorem Stands.of_subset (h : Stands pairs' p bytes start e) (hsub : pairs ⊆ pairs') :
    Stands pairs p bytes start e :=
  ⟨h.start_le, h.char, h.outside.of_subset hsub⟩

theorem firstMark_iff : FirstMark pairs bytes start m ↔
    Stands pairs IsMark bytes start m ∧ ∀ k < m, ¬ Stands pairs IsMark bytes start k :=
  ⟨fun h => ⟨h.1, fun _ hlt hk => Nat.not_lt_of_le (h.2 hk) hlt⟩,
    fun h => ⟨h.1, fun k hk => Nat.le_of_not_lt fun hlt => h.2 k hlt hk⟩⟩

instance : Decidable (FirstMark pairs bytes start m) := decidable_of_iff' _ firstMark_iff

theorem Stands.exists_firstMark (h : Stands pairs IsMark bytes start e) :
    ∃ m, FirstMark pairs bytes start m :=
  ⟨Nat.find ⟨e, h⟩, Nat.isLeast_find ⟨e, h⟩⟩

/-- The first mark outside of groups of fewer kinds is the first one for more kinds, if it is
outside of those. -/
theorem FirstMark.of_outside (h : FirstMark pairs bytes start m) (hsub : pairs ⊆ pairs')
    (hout : Outside pairs' bytes start m) : FirstMark pairs' bytes start m :=
  ⟨⟨h.1.start_le, h.1.char, hout⟩, fun _ hk => h.2 (hk.of_subset hsub)⟩

/-- A body opens where the first mark is an opening brace. -/
theorem bodyOpens_some_iff : BodyOpens pairs bytes start (some e) ↔
    FirstMark pairs bytes start e ∧ bytes[e]? = some '\x7b' := by
  constructor
  · intro h
    cases h with
    | opens hfirst hlive =>
      obtain ⟨c, hc, rfl⟩ := hfirst.1.char
      refine ⟨⟨hfirst.1.imp fun _ => .inl, fun m hm => ?_⟩, hc⟩
      obtain ⟨c, hc, rfl | hend⟩ := hm.char
      · exact hfirst.2 ⟨hm.start_le, ⟨_, hc, rfl⟩, hm.outside⟩
      · exact Nat.le_of_lt (hlive m ⟨hm.start_le, ⟨c, hc, hend⟩, hm.outside⟩)
  · rintro ⟨hfirst, hbrace⟩
    refine .opens ⟨⟨hfirst.1.start_le, ⟨_, hbrace, rfl⟩, hfirst.1.outside⟩, fun m hm => ?_⟩ ?_
    · exact hfirst.2 (hm.imp fun _ => .inl)
    · intro k hk
      refine Nat.lt_of_le_of_ne (hfirst.2 (hk.imp fun _ => .inr)) ?_
      rintro rfl
      obtain ⟨c, hc, hend⟩ := hk.char
      obtain rfl := Option.some.inj (hc.symm.trans hbrace)
      exact absurd hend (by decide)

/-- That no body opens is that none opens at any place. -/
theorem bodyOpens_none_iff : BodyOpens pairs bytes start none ↔
    ∀ e, ¬ BodyOpens pairs bytes start (some e) := by
  simp only [bodyOpens_some_iff, not_and]
  constructor
  · intro h e hfirst hbrace
    have hstands : Stands pairs (· = '\x7b') bytes start e :=
      ⟨hfirst.1.start_le, ⟨_, hbrace, rfl⟩, hfirst.1.outside⟩
    cases h with
    | ended hmark hbefore =>
      exact Nat.not_lt_of_le (hfirst.2 (hmark.imp fun _ => .inr)) (hbefore e hstands)
    | lacks hnowhere => exact hnowhere e hstands
  · intro h
    by_cases hany : ∃ e, Stands pairs (· = '\x7b') bytes start e
    · obtain ⟨e, he⟩ := hany
      obtain ⟨m, hm⟩ := (he.imp (q := IsMark) fun _ => .inl).exists_firstMark
      obtain ⟨c, hc, rfl | hend⟩ := hm.1.char
      · exact absurd hc (h m hm)
      · refine .ended ⟨hm.1.start_le, ⟨c, hc, hend⟩, hm.1.outside⟩ fun e he => ?_
        refine Nat.lt_of_le_of_ne (hm.2 (he.imp fun _ => .inl)) ?_
        rintro rfl
        obtain ⟨c, hbrace, rfl⟩ := he.char
        exact h m hm hbrace
    · exact .lacks (not_exists.mp hany)

/-! ## What the reader passes -/

/-- From one place to another there is nothing to stop at. -/
structure Passes (pairs : List (Char × Char)) (bytes : List Char) (start start' : Nat) : Prop where
  le : start ≤ start'
  stands_iff : ∀ m, Stands pairs IsMark bytes start m ↔ Stands pairs IsMark bytes start' m

/-- What is found behind is found from the front. -/
theorem Passes.bodyOpens (h : Passes pairs bytes start start') {a : Option Nat}
    (ha : BodyOpens pairs bytes start' a) : BodyOpens pairs bytes start a := by
  have hfirst : ∀ m, FirstMark pairs bytes start m ↔ FirstMark pairs bytes start' m := by
    intro m
    rw [FirstMark, FirstMark, Set.ext h.stands_iff]
  cases a with
  | none =>
    rw [bodyOpens_none_iff] at ha ⊢
    intro e he
    rw [bodyOpens_some_iff, hfirst, ← bodyOpens_some_iff] at he
    exact ha e he
  | some e =>
    rw [bodyOpens_some_iff] at ha ⊢
    exact ⟨(hfirst e).mpr ha.1, ha.2⟩

/-- Places without marks at which no group opens. -/
theorem passes_of_clear (hle : start ≤ start')
    (hclear : ∀ b u, start ≤ b → b < start' → bytes[b]? = some u →
      ¬ IsMark u ∧ ∀ pair ∈ pairs, u ≠ pair.1) : Passes pairs bytes start start' := by
  refine ⟨hle, fun m => ⟨fun hm => ?_, fun hm => ?_⟩⟩
  · obtain ⟨u, hu, hmark⟩ := hm.char
    have hbehind : start' ≤ m :=
      Nat.le_of_not_lt fun hlt => (hclear m u hm.start_le hlt hu).1 hmark
    exact ⟨hbehind, hm.char, hm.outside.of_le hle⟩
  · refine ⟨Nat.le_trans hle hm.start_le, hm.char, hm.outside.of_none_opens ?_⟩
    intro b hb hlt pair hpair hopens
    exact (hclear b pair.1 hb hlt hopens).2 pair hpair rfl

/-- A group that holds what opens in it. -/
theorem passes_group (hd : ∀ pair ∈ pairs, Delimiter.closing? pair.1 = some pair.2)
    (hgroup : IsGroup pairs bytes start j) (hin : Encloses pairs bytes start j) :
    Passes pairs bytes start (j + 1) := by
  have hle : start ≤ j + 1 := Nat.le_succ_of_le (Nat.le_of_lt hgroup.lt)
  refine ⟨hle, fun m => ⟨fun hm => ?_, fun hm => ?_⟩⟩
  · have hbehind : j < m :=
      Nat.lt_of_not_le fun hmj =>
        hm.outside start j (Nat.le_refl _) hgroup ⟨hm.start_le, hmj⟩
    exact ⟨hbehind, hm.char, hm.outside.of_le hle⟩
  · exact ⟨Nat.le_trans hle hm.start_le, hm.char,
      hm.outside.of_behind hd hgroup hin hm.start_le⟩

end

/-! ## The reader -/

section

variable {text before rest : List Char} {c : Char} {start resume : Nat}

theorem closing_of_mem_parenPairs :
    ∀ pair ∈ parenPairs, Delimiter.closing? pair.1 = some pair.2 := by decide

theorem ascii_of_isMark (h : IsMark c) : c.toNat < 128 := by
  rcases h with rfl | rfl | rfl <;> decide

/-- A mark is the first one from its own place on. -/
theorem firstMark_char (h : IsMark c) :
    FirstMark parenPairs (units (before ++ c :: rest)) (Text.width before) (Text.width before) := by
  have hchar : (units (before ++ c :: rest))[Text.width before]? = some c :=
    Utf8.getElem?_units_width (ascii_of_isMark h)
  refine ⟨⟨Nat.le_refl _, ⟨c, hchar, h⟩, Delimiter.outside_self ?_⟩, fun k hk => hk.start_le⟩
  simp only [parenPairs, List.mem_singleton, forall_eq, hchar, ne_eq, Option.some.injEq]
  rintro rfl
  exact absurd h (by decide)

/-- Places up to the end of a character, from one within it on or from its own on when it is no
mark and no parenthesis opens there. -/
theorem passes_char {place : Nat} (hle : Text.width before ≤ place)
    (hlt : place ≤ Text.width before + c.utf8Size)
    (hc : place = Text.width before → ¬ IsMark c ∧ c ≠ '(') :
    Passes parenPairs (units (before ++ c :: rest)) place (Text.width before + c.utf8Size) := by
  refine passes_of_clear hlt fun b u hb hb' hu => ?_
  simp only [parenPairs, List.mem_singleton, forall_eq]
  rcases Utf8.getElem?_units_append (Nat.le_trans hle hb) hb' hu with ⟨rfl, rfl⟩ | hwide
  · exact hc (Nat.le_antisymm hb hle)
  · refine ⟨fun hmark => ?_, Delimiter.ne_of_wide hwide (by decide)⟩
    exact absurd (ascii_of_isMark hmark) (Nat.not_lt_of_le hwide)

/-- A parenthesis that opens is matched where its group ends, and the reader passes the group. -/
theorem exists_passes (hbare : Text.isBare (before ++ '(' :: rest) = true)
    (hnested : WellNested parenPairs (units (before ++ '(' :: rest)) (Text.width before)) :
    ∃ close, Delimiter.closeOf? (Text.width before) ('(' :: rest) = some close ∧
      Passes parenPairs (units (before ++ '(' :: rest)) (Text.width before)
        (max (close + 1) (Text.width before + ('(' : Char).utf8Size)) := by
  obtain ⟨close, hgroup, hclose⟩ :=
    hnested.exists_close (d := ')') hbare (Nat.le_refl _) (by decide) rfl
  have hin : IsGroup parenPairs (units (before ++ '(' :: rest)) (Text.width before) close :=
    ⟨_, List.mem_singleton_self _, hgroup⟩
  have hsize : ('(' : Char).utf8Size = 1 := rfl
  have hlt := hin.lt
  refine ⟨close, hclose, ?_⟩
  rw [Nat.max_eq_left (by omega)]
  exact passes_group closing_of_mem_parenPairs hin (hnested.nested _ _ (Nat.le_refl _) hin)

/-- The reader finds where a body opens.  It stands at the character behind `before`, or leaves
alone what lies before `resume`. -/
theorem bodyOpens_bodyOpenFrom (htext : text = before ++ rest) (hbare : Text.isBare text = true)
    (hnested : WellNested parenPairs (units text) (max resume (Text.width before))) :
    BodyOpens parenPairs (units text) (max resume (Text.width before))
      (bodyOpenFrom resume (Text.width before) rest) := by
  induction rest generalizing before resume with
  | nil =>
    refine .lacks fun e he => ?_
    obtain ⟨c, hc, -⟩ := he.char
    have hlt := Delimiter.lt_length_of_getElem? hc
    have hle := he.start_le
    rw [Utf8.length_units, htext, List.append_nil] at hlt
    omega
  | cons c rest ih =>
    have hgo : ∀ resume', Passes parenPairs (units text) (max resume (Text.width before))
        (max resume' (Text.width before + c.utf8Size)) →
        BodyOpens parenPairs (units text) (max resume (Text.width before))
          (bodyOpenFrom resume' (Text.width before + c.utf8Size) rest) := by
      intro resume' hpass
      refine hpass.bodyOpens ?_
      have hnested' := hnested.of_le hpass.le
      have hwidth : Text.width (before ++ [c]) = Text.width before + c.utf8Size := by
        rw [Text.width_append, Text.width_cons, Text.width_nil, Nat.add_zero]
      rw [← hwidth] at hnested' ⊢
      exact ih (by rw [htext, List.append_cons]) hnested'
    have hpos := Char.utf8Size_pos c
    rw [bodyOpenFrom]
    split
    · next hskip =>
      refine hgo resume ?_
      rw [Nat.max_eq_left (Nat.le_of_lt hskip)]
      rcases Nat.le_total (Text.width before + c.utf8Size) resume with hle | hle
      · rw [Nat.max_eq_left hle]
        exact ⟨Nat.le_refl _, fun m => Iff.rfl⟩
      · rw [Nat.max_eq_right hle, htext]
        exact passes_char (Nat.le_of_lt hskip) hle fun heq => absurd hskip (by omega)
    next hskip =>
    have hplace : max resume (Text.width before) = Text.width before :=
      Nat.max_eq_right (Nat.le_of_not_lt hskip)
    rw [hplace] at hgo hnested ⊢
    split
    · next hbrace =>
      subst hbrace
      rw [htext]
      exact bodyOpens_some_iff.mpr
        ⟨firstMark_char (.inl rfl), Utf8.getElem?_units_width (by decide)⟩
    next hbrace =>
    split
    · next hend =>
      rw [htext]
      refine bodyOpens_none_iff.mpr fun e he => ?_
      obtain ⟨hfirst, hopens⟩ := bodyOpens_some_iff.mp he
      obtain rfl := hfirst.unique (firstMark_char (.inr hend))
      rw [Utf8.getElem?_units_width (ascii_of_isMark (.inr hend)), Option.some.injEq] at hopens
      exact hbrace hopens
    next hend =>
    split
    · next hopen =>
      subst hopen
      rw [htext] at hbare hnested
      obtain ⟨close, hclose, hpass⟩ := exists_passes hbare hnested
      rw [hclose]
      exact hgo (close + 1) (by rwa [htext])
    · next hopen =>
      refine hgo resume ?_
      rw [Nat.max_eq_right (by omega), htext]
      exact passes_char (Nat.le_refl _) (Nat.le_add_right _ _) fun _ =>
        ⟨not_or.mpr ⟨hbrace, hend⟩, hopen⟩

/-- The body that is found opens where one opens for parentheses alone. -/
theorem bodyOpens_bodyOpen? (hbare : Text.isBare text = true)
    (hnested : WellNested parenPairs (units text) start) :
    BodyOpens parenPairs (units text) start (bodyOpen? text start) := by
  have hplace : max start (Text.width []) = start := Nat.max_eq_left (Nat.zero_le start)
  have hopens := @bodyOpens_bodyOpenFrom text [] text start (List.nil_append text).symm hbare
    (by rwa [hplace])
  rwa [hplace] at hopens

end

/-! ## Angle brackets -/

/-- The first mark outside of parentheses stands between angle brackets, and it is an opening
brace or hides one that is the first mark outside of both. -/
structure Diverts (bytes : List Char) (start m : Nat) : Prop where
  first : FirstMark parenPairs bytes start m
  inside : ¬ Outside headPairs bytes start m
  harm : bytes[m]? = some '\x7b' ∨
    ∃ e, FirstMark headPairs bytes start e ∧ bytes[e]? = some '\x7b'

theorem parenPairs_subset : parenPairs ⊆ headPairs := by
  simp [parenPairs, headPairs]

/-- What holds for parentheses alone holds with angle brackets as well, unless a mark between
angle brackets diverts the reader. -/
theorem bodyOpens_headPairs_iff {bytes : List Char} {start : Nat} {a : Option Nat}
    (h : BodyOpens parenPairs bytes start a) :
    BodyOpens headPairs bytes start a ↔ ¬ ∃ m, Diverts bytes start m := by
  cases a with
  | some e =>
    obtain ⟨hfirst, hbrace⟩ := bodyOpens_some_iff.mp h
    constructor
    · rintro hopens ⟨m, hm⟩
      obtain rfl := hm.first.unique hfirst
      exact hm.inside (bodyOpens_some_iff.mp hopens).1.1.outside
    · intro hnone
      have hout : Outside headPairs bytes start e :=
        by_contra fun hin => hnone ⟨e, hfirst, hin, .inl hbrace⟩
      exact bodyOpens_some_iff.mpr ⟨hfirst.of_outside parenPairs_subset hout, hbrace⟩
  | none =>
    have hclosed := bodyOpens_none_iff.mp h
    constructor
    · rintro hopens ⟨m, hm⟩
      rcases hm.harm with hbrace | ⟨e, he⟩
      · exact hclosed m (bodyOpens_some_iff.mpr ⟨hm.first, hbrace⟩)
      · exact bodyOpens_none_iff.mp hopens e (bodyOpens_some_iff.mpr he)
    · intro hnone
      refine bodyOpens_none_iff.mpr fun e he => ?_
      obtain ⟨hfirst, hbrace⟩ := bodyOpens_some_iff.mp he
      obtain ⟨m, hm⟩ := (hfirst.1.of_subset parenPairs_subset).exists_firstMark
      -- outside of angle brackets the mark in front would be the brace itself
      refine hnone ⟨m, hm, fun hout => ?_, .inr ⟨e, hfirst, hbrace⟩⟩
      obtain rfl := (hm.of_outside parenPairs_subset hout).unique hfirst
      exact hclosed m (bodyOpens_some_iff.mpr ⟨hm, hbrace⟩)

/-- In a text without quotes and comments whose parentheses and angle brackets close and do not
cross from the start on, the reader finds where a body opens as far as parentheses go.  With angle
brackets it does so exactly when no mark between them diverts it, and so always when all marks
between them are in parentheses. -/
theorem bodyOpen?_iff_not_diverts (text : List Char) (start : Nat)
    (hbare : Text.isBare text = true) (hnested : WellNested headPairs (units text) start) :
    BodyOpens parenPairs (units text) start (bodyOpen? text start) ∧
    (BodyOpens headPairs (units text) start (bodyOpen? text start) ↔
      ¬ ∃ m, Diverts (units text) start m) ∧
    ((∀ m, Stands parenPairs IsMark (units text) start m → Outside headPairs (units text) start m) →
      BodyOpens headPairs (units text) start (bodyOpen? text start)) := by
  have hopens := bodyOpens_bodyOpen? hbare (hnested.of_subset parenPairs_subset)
  have hiff := bodyOpens_headPairs_iff hopens
  refine ⟨hopens, hiff, fun hall => hiff.mpr ?_⟩
  rintro ⟨m, hm⟩
  exact hm.inside (hall m hm.first.1)

/-- The braces of a template argument are taken for those of the body, and braces in the
parentheses of one are not. -/
theorem bodyOpen?_iff_not_diverts_argument :
    (BodyOpens parenPairs (units ":B<P\x7b1\x7d>\x7b".toList) 1 (some 4) ∧
      ¬ BodyOpens headPairs (units ":B<P\x7b1\x7d>\x7b".toList) 1 (some 4)) ∧
    BodyOpens headPairs (units ":B<f(\x7b;\x7d)>\x7b".toList) 1 (some 10) := by
  have hbraces := bodyOpen?_iff_not_diverts ":B<P\x7b1\x7d>\x7b".toList 1 (by decide) (by decide)
  have hparens := bodyOpen?_iff_not_diverts ":B<f(\x7b;\x7d)>\x7b".toList 1 (by decide) (by decide)
  have hopen : bodyOpen? ":B<P\x7b1\x7d>\x7b".toList 1 = some 4 := by decide
  have hopen' : bodyOpen? ":B<f(\x7b;\x7d)>\x7b".toList 1 = some 10 := by decide
  have hmarks : ∀ m < 11, Stands parenPairs IsMark (units ":B<f(\x7b;\x7d)>\x7b".toList) 1 m →
      Outside headPairs (units ":B<f(\x7b;\x7d)>\x7b".toList) 1 m := by decide
  rw [hopen] at hbraces
  rw [hopen'] at hparens
  refine ⟨⟨hbraces.1, fun h => hbraces.2.1.mp h ⟨4, ?_⟩⟩, hparens.2.2 fun m hm => ?_⟩
  · exact ⟨by decide, by decide, .inl (by decide)⟩
  · obtain ⟨c, hc, -⟩ := hm.char
    exact hmarks m (Delimiter.lt_length_of_getElem? hc) hm

end Statement
end Outline
