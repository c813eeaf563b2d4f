import Mathlib.Data.List.TakeWhile
import Outline.Proofs.Declaration.Alike

/-!
# Types and names of alike declarations

Alike declarations have the same name, found at the same place, and alike types around
it.
-/

namespace Outline

open Stand (isQuote closes breaks)

namespace Parameter

variable {rules : ParameterRules} {p q : Stand} {s t : List Char}

/-! ## Where a name is found -/

/-- If texts that go on with one character have a property together, and nothing that a
literal holds has it, alike texts have it at the same place first. -/
theorem first_cases {P : List Char → Prop}
    (hkeep : ∀ {p q : Stand} {c : Char} {s t : List Char},
      Alike (Quiet rules) p (c :: s) (c :: t) q →
      Alike (Quiet rules) (p.after c) s t q → q.Closed → P (c :: s) → P (c :: t))
    (hhide : ∀ {raw : Bool} {q : Stand} {c : Char} {s t : List Char}, Quiet rules raw c →
      Alike (Quiet rules) (.inside raw) s t q → q.Closed → ¬ P (c :: s))
    (h : Alike (Quiet rules) p s t q) (hq : q.Closed) :
    (Pattern.Nowhere P s ∧ Pattern.Nowhere P t) ∨
      ∃ a b a' b' r, Pattern.First P s a b ∧ Pattern.First P t a' b' ∧
        Alike (Quiet rules) p a a' r ∧ Alike (Quiet rules) r b b' q := by
  induction h with
  | nil p =>
    by_cases hnil : P []
    · exact .inr ⟨[], [], [], [], p, .here hnil, .here hnil, .nil p, .nil p⟩
    · exact .inl ⟨Pattern.nowhere_nil hnil, Pattern.nowhere_nil hnil⟩
  | @keep p q s t c hc h ih =>
    have hall : Alike (Quiet rules) p (c :: s) (c :: t) q := .keep c hc h
    by_cases hs : P (c :: s)
    · have ht : P (c :: t) := hkeep hall h hq hs
      exact .inr ⟨[], _, [], _, p, .here hs, .here ht, .nil p, hall⟩
    · have ht : ¬ P (c :: t) := fun ht => hs (hkeep hall.symm h.symm hq ht)
      rcases ih hq with ⟨hns, hnt⟩ | ⟨a, b, a', b', r, ha, ha', haa, hbb⟩
      · exact .inl ⟨hns.cons hs, hnt.cons ht⟩
      · exact .inr ⟨c :: a, b, c :: a', b', r, .later hs ha, .later ht ha', .keep c hc haa, hbb⟩
  | @hide p q s t raw c hp hc h ih =>
    have hs := hhide hc h hq
    rcases ih hq with ⟨hns, hnt⟩ | ⟨a, b, a', b', r, ha, ha', haa, hbb⟩
    · exact .inl ⟨hns.cons hs, hnt⟩
    · exact .inr ⟨c :: a, b, a', b', r, .later hs ha, ha', .hide hp hc haa, hbb⟩
  | @fill p q s t raw c hp hc h ih =>
    have ht := hhide hc h.symm hq
    rcases ih hq with ⟨hns, hnt⟩ | ⟨a, b, a', b', r, ha, ha', haa, hbb⟩
    · exact .inl ⟨hns, hnt.cons ht⟩
    · exact .inr ⟨a, b, c :: a', b', r, ha, .later ht ha', .fill hp hc haa, hbb⟩

/-! ## Function pointers -/

theorem Pointer.breaks_mark {gap gap' name gap'' : List Char} {mark : Char}
    (h : Pointer gap mark gap' name gap'') : breaks mark = true ∧ closes mark = false := by
  have hmark := h.mark
  simp only [isPointerMark, Bool.or_eq_true, beq_iff_eq] at hmark
  rcases hmark with (rfl | rfl) | rfl <;> decide

theorem not_inside_gap_mark {gap u : List Char} {mark : Char}
    (hgap : ∀ c ∈ gap, Text.isBlank c = true) (hmark : isPointerMark mark = true)
    (hcloses : closes mark = false) :
    ¬ Alike (Quiet rules) (.inside true) (gap ++ mark :: u) t q := by
  intro h
  have hnot : ¬ Quiet rules true mark := by simp [Quiet, isQuiet, hmark]
  have hrest := h.drop_of_inside fun c hc => Stand.closes_of_isBlank (hgap c hc)
  exact Alike.not_inside_cons hnot hcloses hrest

/-- Behind the parenthesis blanks and a mark are no contents of a literal. -/
theorem eq_of_gap_mark {gap u : List Char} {mark : Char}
    (h : Alike (Quiet rules) p (gap ++ mark :: u) t q) (hp : p = .code ∨ p = .opened true)
    (hgap : ∀ c ∈ gap, Text.isBlank c = true) (hmark : isPointerMark mark = true)
    (hbreaks : breaks mark = true ∧ closes mark = false) :
    ∃ t', t = gap ++ mark :: t' ∧ Alike (Quiet rules) .code u t' q := by
  have hraw : ∀ {raw : Bool}, p.Admits raw → raw = true := by
    intro raw hadmits
    rcases hp with rfl | rfl
    · exact absurd hadmits (Stand.not_admits_code raw)
    · simpa [Stand.Admits, eq_comm] using hadmits
  -- The first character decides: once it is read as it stands, the texts are in code.
  cases gap with
  | nil =>
    cases h with
    | keep _ _ h =>
      rw [Stand.after_of_breaks hbreaks.1] at h
      exact ⟨_, rfl, h⟩
    | hide hadmits hc =>
      obtain rfl := hraw hadmits
      exact absurd hc (by simp [Quiet, isQuiet, hmark])
    | fill hadmits _ h =>
      obtain rfl := hraw hadmits
      exact absurd h (not_inside_gap_mark hgap hmark hbreaks.2)
  | cons c gap =>
    have hmore : ∀ d ∈ gap, Text.isBlank d = true := fun d hd => hgap d (List.mem_cons_of_mem c hd)
    cases h with
    | @keep _ _ _ t₁ _ _ h =>
      rw [Stand.after_of_breaks (Stand.breaks_of_isBlank (hgap c List.mem_cons_self))] at h
      have hcode : Alike (Quiet rules) .code ((gap ++ [mark]) ++ u) t₁ q := by
        rw [← List.append_cons]
        exact h
      obtain ⟨t', rfl, h'⟩ := hcode.eq_append_of_not_quote fun d hd => by
        rcases List.mem_append.mp hd with hd | hd
        · exact Stand.isQuote_of_isBlank (hmore d hd)
        · exact List.mem_singleton.mp hd ▸ Stand.isQuote_of_breaks hbreaks.1
      exact ⟨t', by simp, h'⟩
    | hide hadmits hc h =>
      obtain rfl := hraw hadmits
      exact absurd h (not_inside_gap_mark hmore hmark hbreaks.2)
    | fill hadmits _ h =>
      obtain rfl := hraw hadmits
      exact absurd h (not_inside_gap_mark hgap hmark hbreaks.2)

/-- What follows the parenthesis of a function pointer is the same up to its name and
behind it. -/
theorem exists_eq_pointerText {gap gap' name gap'' rest : List Char} {mark : Char}
    (h : Alike (Quiet rules) (p.after '(')
      (gap ++ mark :: (gap' ++ (name ++ (gap'' ++ ')' :: rest)))) t q)
    (hp : Pointer gap mark gap' name gap'') :
    ∃ rest', t = gap ++ mark :: (gap' ++ (name ++ (gap'' ++ ')' :: rest'))) ∧
      Alike (Quiet rules) .code rest rest' q := by
  have hafter : p.after '(' = .code ∨ p.after '(' = .opened true := by
    by_cases hopened : p = .opened false
    · exact .inr (by rw [hopened]; rfl)
    · refine .inl ?_
      simp [Stand.after, hopened, isQuote]
  obtain ⟨t₁, rfl, h₁⟩ := eq_of_gap_mark h hafter hp.gap hp.mark hp.breaks_mark
  have hplain : ∀ c ∈ gap' ++ (name ++ (gap'' ++ [')'])), isQuote c = false := by
    intro c hc
    simp only [List.mem_append, List.mem_singleton] at hc
    rcases hc with hc | hc | hc | rfl
    · exact Stand.isQuote_of_isBlank (hp.gap' c hc)
    · exact Stand.isQuote_of_isWordChar (hp.name.all c hc)
    · exact Stand.isQuote_of_isBlank (hp.gap'' c hc)
    · rfl
  have hbehind : Alike (Quiet rules) .code ((gap' ++ (name ++ (gap'' ++ [')']))) ++ rest) t₁ q := by
    simpa using h₁
  obtain ⟨rest', rfl, hrest⟩ := hbehind.eq_append_of_not_quote hplain
  exact ⟨rest', by simp, hrest⟩

theorem starts_pointerName_iff : pointerName.Starts s ↔
    ∃ gap mark gap' name gap'' rest, s = pointerText gap mark gap' name gap'' rest ∧
      Pointer gap mark gap' name gap'' := by
  constructor
  · intro h
    obtain ⟨found, hfound⟩ := Option.isSome_iff_exists.mp
      (Pattern.isSome_matchAt ⟨none, 0, s⟩ h)
    obtain ⟨gap, mark, gap', name, gap'', rest, hs, hp, -⟩ := pointerName_matchAt hfound
    exact ⟨gap, mark, gap', name, gap'', rest, hs, hp⟩
  · rintro ⟨gap, mark, gap', name, gap'', rest, rfl, hp⟩
    exact hp.starts rest

theorem first_cases_pointerName (h : Alike (Quiet rules) p s t q) (hq : q.Closed) :
    (Pattern.Nowhere pointerName.Starts s ∧ Pattern.Nowhere pointerName.Starts t) ∨
      ∃ a b a' b' r, Pattern.First pointerName.Starts s a b ∧
        Pattern.First pointerName.Starts t a' b' ∧
        Alike (Quiet rules) p a a' r ∧ Alike (Quiet rules) r b b' q := by
  refine first_cases (fun _ h _ hs => ?_) (fun hc _ _ hs => ?_) h hq
  · obtain ⟨gap, mark, gap', name, gap'', rest, heq, hp⟩ := starts_pointerName_iff.mp hs
    obtain ⟨rfl, rfl⟩ := List.cons.inj heq
    obtain ⟨rest', rfl, -⟩ := exists_eq_pointerText h hp
    exact hp.starts rest'
  · obtain ⟨gap, mark, gap', name, gap'', rest, heq, -⟩ := starts_pointerName_iff.mp hs
    obtain ⟨rfl, -⟩ := List.cons.inj heq
    exact not_quiet_of (by simp [isQuiet]) _ hc

/-- Function pointers in alike texts have the same name, and the texts around it are
alike. -/
theorem alike_pointerText {gap gap' name gap'' rest gap₁ gap₁' name₁ gap₁'' rest₁ : List Char}
    {mark mark₁ : Char} (h : Alike (Quiet rules) p (pointerText gap mark gap' name gap'' rest)
      (pointerText gap₁ mark₁ gap₁' name₁ gap₁'' rest₁) q)
    (hp : Pointer gap mark gap' name gap'') (hp₁ : Pointer gap₁ mark₁ gap₁' name₁ gap₁'') :
    name = name₁ ∧
      Alike (Quiet rules) p ('(' :: (gap ++ mark :: gap') ++ (gap'' ++ ')' :: rest))
        ('(' :: (gap₁ ++ mark₁ :: gap₁') ++ (gap₁'' ++ ')' :: rest₁)) q := by
  have hopen : ∀ raw, ¬ Quiet rules raw '(' := not_quiet_of (by simp [isQuiet])
  cases h with
  | hide _ hc => exact absurd hc (hopen _)
  | fill _ hc => exact absurd hc (hopen _)
  | keep _ hc h =>
    obtain ⟨rest', heq, hrest⟩ := exists_eq_pointerText h hp
    obtain ⟨rfl, rfl, rfl, rfl, rfl, rfl⟩ := hp.unique hp₁ (congrArg ('(' :: ·) heq.symm)
    refine ⟨rfl, ?_⟩
    have hsame : Alike (Quiet rules) p (('(' :: (gap ++ mark :: gap') ++ gap'') ++ [')'])
        (('(' :: (gap ++ mark :: gap') ++ gap'') ++ [')']) .code :=
      Alike.refl_of_breaks (closed_of_not_closes hc rfl) (by decide)
    simpa using hsame.append hrest

/-! ## The name at the end -/

theorem starts_trailingName_iff : trailingName.Starts s ↔
    ∃ name gap, s = name ++ gap ∧ Trailing name gap := by
  constructor
  · intro h
    obtain ⟨found, hfound⟩ := Option.isSome_iff_exists.mp
      (Pattern.isSome_matchAt ⟨none, 0, s⟩ h)
    obtain ⟨name, gap, hs, ht, -⟩ := trailingName_matchAt hfound
    exact ⟨name, gap, hs, ht⟩
  · rintro ⟨name, gap, rfl, ht⟩
    exact ht.starts

theorem Trailing.not_closes {name gap : List Char} (h : Trailing name gap) :
    ∀ c ∈ name ++ gap, closes c = false := by
  intro c hc
  rcases List.mem_append.mp hc with hc | hc
  · rcases Bool.or_eq_true_iff.mp (h.name.all c hc) with hword | hdollar
    · exact Stand.closes_of_isWordChar hword
    · exact (beq_iff_eq.mp hdollar) ▸ rfl
  · exact Stand.closes_of_isBlank (h.gap c hc)

theorem first_cases_trailingName (h : Alike (Quiet rules) p s t q) (hq : q.Closed) :
    (Pattern.Nowhere trailingName.Starts s ∧ Pattern.Nowhere trailingName.Starts t) ∨
      ∃ a b a' b' r, Pattern.First trailingName.Starts s a b ∧
        Pattern.First trailingName.Starts t a' b' ∧
        Alike (Quiet rules) p a a' r ∧ Alike (Quiet rules) r b b' q := by
  refine first_cases (fun hall _ hq hs => ?_) (fun _ h hq hs => ?_) h hq
  · obtain ⟨name, gap, heq, ht⟩ := starts_trailingName_iff.mp hs
    exact (hall.eq_of_not_closes hq (heq ▸ ht.not_closes)).1 ▸ hs
  · obtain ⟨name, gap, heq, ht⟩ := starts_trailingName_iff.mp hs
    have hnot := heq ▸ ht.not_closes
    have hclosed := (h.eq_of_not_closes hq fun c hc => hnot c (List.mem_cons_of_mem _ hc)).2
    exact absurd hclosed (Stand.not_closed_inside _)

/-! ## Array brackets -/

/-- A declaration that ends with array brackets, with what stands before them. -/
structure ArrayEnd (s before inner : List Char) : Prop where
  eq : s = before ++ '[' :: inner
  last : '[' ∉ inner
  closed : ∃ more, inner = more ++ [']']

theorem takeArrays_of_arrayEnd {before inner : List Char} (h : ArrayEnd s before inner) (n : Nat)
    (suffix : List Char) :
    takeArrays (n + 1) s.reverse suffix =
      takeArrays n (Text.trimEnd before).reverse ('[' :: inner ++ suffix) := by
  obtain ⟨rfl, hlast, more, rfl⟩ := h
  have hne : ∀ c ∈ (more ++ [']']).reverse, (c != '[') = true := by
    intro c hc
    refine bne_iff_ne.mpr fun heq => hlast ?_
    exact heq ▸ List.mem_reverse.mp hc
  have hrev : (before ++ '[' :: (more ++ [']'])).reverse =
      (more ++ [']']).reverse ++ '[' :: before.reverse := by simp
  have hhead : (more ++ [']']).reverse ++ '[' :: before.reverse =
      ']' :: (more.reverse ++ '[' :: before.reverse) := by simp
  have hdrop : (']' :: (more.reverse ++ '[' :: before.reverse)).dropWhile (· != '[') =
      '[' :: before.reverse := by
    rw [← hhead, List.dropWhile_append_of_pos hne]
    rfl
  have htake : (']' :: (more.reverse ++ '[' :: before.reverse)).takeWhile (· != '[') =
      (more ++ [']']).reverse := by
    rw [← hhead, List.takeWhile_append_of_pos hne]
    simp
  rw [hrev, hhead, takeArrays, hdrop, htake, List.reverse_reverse, Text.trimEnd,
    List.reverse_reverse]
  rfl

theorem takeArrays_of_not (h : ∀ before inner, ¬ ArrayEnd s before inner) (fuel : Nat)
    (suffix : List Char) : takeArrays fuel s.reverse suffix = (s.reverse, suffix) := by
  unfold takeArrays
  split
  · next n suffix more heq =>
    split
    · next before hdrop =>
      have hsplit := List.takeWhile_append_dropWhile (p := (· != '[')) (l := s.reverse)
      rw [heq, hdrop] at hsplit
      refine absurd ⟨?_, ?_, (more.takeWhile (· != '[')).reverse, ?_⟩
        (h before.reverse ((']' :: more).takeWhile (· != '[')).reverse)
      · have hs : s = (']' :: more).reverse := by rw [← heq, List.reverse_reverse]
        refine hs.trans ((congrArg List.reverse hsplit.symm).trans ?_)
        rw [List.reverse_append, List.reverse_cons, List.append_assoc]
        rfl
      · intro hmem
        have hall := List.all_eq_true.mp (List.all_takeWhile (p := (· != '['))) _
          (List.mem_reverse.mp hmem)
        simp at hall
      · simp
    · rw [heq]
  · rfl

theorem alike_arrayEnd (h : AlikeTexts (Quiet rules) s t) {before inner : List Char}
    (hs : ArrayEnd s before inner) :
    ∃ before' inner', ArrayEnd t before' inner' ∧ AlikeTexts (Quiet rules) before before' ∧
      AlikeTexts (Quiet rules) inner inner' := by
  obtain ⟨rfl, hlast, more, hinner⟩ := hs
  obtain ⟨q, h, hq⟩ := h
  have hopen : ∀ raw, ¬ Quiet rules raw '[' := not_quiet_of (by simp [isQuiet])
  obtain ⟨before', inner', r, rfl, hbefore, hr, hinner'⟩ := h.exists_append_cons hopen
  rw [Stand.after_of_breaks (by decide)] at hinner'
  have hclosed : AlikeTexts (Quiet rules) (more ++ [']']) inner' := hinner ▸ ⟨q, hinner', hq⟩
  obtain ⟨more', hmore', -⟩ := hclosed.append_of_not_closes (by simp; decide)
  refine ⟨before', inner', ⟨rfl, fun hmem => hlast ?_, more', hmore'⟩,
    ⟨r, hbefore, closed_of_not_closes hr rfl⟩, q, hinner', hq⟩
  exact hinner'.symm.mem_of_mem hopen hmem

/-- Texts that are alike behind anything but the inside of a literal. -/
def AlikeBehind (rules : ParameterRules) (s t : List Char) : Prop :=
  ∀ p : Stand, p.Closed → ∃ q, Alike (Quiet rules) p s t q ∧ q.Closed

theorem AlikeBehind.bracketed {suffix suffix' inner inner' : List Char}
    (h : AlikeBehind rules suffix suffix') (hi : AlikeTexts (Quiet rules) inner inner') :
    AlikeBehind rules ('[' :: inner ++ suffix) ('[' :: inner' ++ suffix') := by
  intro p hp
  obtain ⟨r, hinner, hr⟩ := hi
  obtain ⟨q, hsuffix, hq⟩ := h r hr
  rw [← Stand.after_of_breaks (c := '[') (by decide) p] at hinner
  exact ⟨q, .keep_of_closed hp (hinner.append hsuffix), hq⟩

theorem AlikeTexts.append_behind {suffix suffix' : List Char} (h : AlikeTexts (Quiet rules) s t)
    (hs : AlikeBehind rules suffix suffix') :
    AlikeTexts (Quiet rules) (s ++ suffix) (t ++ suffix') := by
  obtain ⟨r, h, hr⟩ := h
  obtain ⟨q, hsuffix, hq⟩ := hs r hr
  exact ⟨q, h.append hsuffix, hq⟩

theorem length_trimEnd_le (text : List Char) : (Text.trimEnd text).length ≤ text.length := by
  obtain ⟨blanks, heq⟩ := Text.trimEnd_append text
  have hlen := congrArg List.length heq
  rw [List.length_append] at hlen
  omega

theorem length_of_arrayEnd {before inner : List Char} (h : ArrayEnd s before inner) :
    (Text.trimEnd before).length < s.length := by
  have hle := length_trimEnd_le before
  rw [h.eq, List.length_append, List.length_cons]
  omega

theorem alike_takeArrays {s t : List Char} (h : AlikeTexts (Quiet rules) s t) {fuel fuel' : Nat}
    (hs : s.length ≤ fuel) (ht : t.length ≤ fuel') {suffix suffix' : List Char}
    (hsuffix : AlikeBehind rules suffix suffix') :
    ∃ core core' arrays arrays', takeArrays fuel s.reverse suffix = (core.reverse, arrays) ∧
      takeArrays fuel' t.reverse suffix' = (core'.reverse, arrays') ∧
      AlikeTexts (Quiet rules) core core' ∧ AlikeBehind rules arrays arrays' := by
  -- Each round takes off one pair of brackets, so the fuel is never used up.
  by_cases harray : ∃ before inner, ArrayEnd s before inner
  · obtain ⟨before, inner, hend⟩ := harray
    obtain ⟨before', inner', hend', hbefore, hinner⟩ := alike_arrayEnd h hend
    have hlt := length_of_arrayEnd hend
    have hlt' := length_of_arrayEnd hend'
    obtain ⟨n, rfl⟩ : ∃ n, fuel = n + 1 := ⟨fuel - 1, by omega⟩
    obtain ⟨n', rfl⟩ : ∃ n, fuel' = n + 1 := ⟨fuel' - 1, by omega⟩
    rw [takeArrays_of_arrayEnd hend, takeArrays_of_arrayEnd hend']
    exact alike_takeArrays hbefore.trimEnd (by omega) (by omega) (hsuffix.bracketed hinner)
  · have hnot : ∀ before inner, ¬ ArrayEnd s before inner := fun before inner hend =>
      harray ⟨before, inner, hend⟩
    have hnot' : ∀ before inner, ¬ ArrayEnd t before inner := fun before inner hend => by
      obtain ⟨before', inner', hend', -⟩ := alike_arrayEnd h.symm hend
      exact hnot before' inner' hend'
    exact ⟨s, t, suffix, suffix', takeArrays_of_not hnot fuel suffix,
      takeArrays_of_not hnot' fuel' suffix', h, hsuffix⟩
  termination_by fuel

/-! ## All type -/

theorem isEmpty_eq (h : AlikeTexts (Quiet rules) s t) : s.isEmpty = t.isEmpty := by
  rw [Bool.eq_iff_iff, List.isEmpty_iff, List.isEmpty_iff]
  exact h.eq_nil

theorem endsWith_iff {text word : List Char} :
    Text.endsWith text word = true ↔ ∃ before, text = before ++ word := by
  rw [Text.endsWith, Option.isSome_iff_exists]
  constructor
  · rintro ⟨before, h⟩
    exact ⟨before, Text.eq_append_of_dropTrail? h⟩
  · rintro ⟨before, rfl⟩
    refine ⟨before, ?_⟩
    rw [Text.dropTrail?, List.reverse_append,
      Text.dropLead?_eq_some_iff.mpr (rfl : word.reverse ++ before.reverse = _)]
    simp

theorem endsWith_eq (h : AlikeTexts (Quiet rules) s t) (word : List Char)
    (hw : ∀ c ∈ word, closes c = false) : Text.endsWith s word = Text.endsWith t word := by
  have himp : ∀ {s t : List Char}, AlikeTexts (Quiet rules) s t →
      Text.endsWith s word = true → Text.endsWith t word = true := by
    intro s t h hs
    obtain ⟨before, rfl⟩ := endsWith_iff.mp hs
    obtain ⟨before', rfl, -⟩ := h.append_of_not_closes hw
    exact endsWith_iff.mpr ⟨before', rfl⟩
  exact Bool.eq_iff_iff.mpr ⟨himp h, himp h.symm⟩

theorem all_words_eq (h : AlikeTexts (Quiet rules) s t) {test : List Char → Bool}
    (ht : ∀ w, test w = true → ∀ c ∈ w, isQuote c = false) :
    (Text.words s).all test = (Text.words t).all test := by
  obtain ⟨s', t', hst, hs, ht⟩ := h.exists_dropWhile_words ht
  have hall : ∀ ws : List (List Char), ws.all test = true ↔ ws.dropWhile test = [] := by
    intro ws
    rw [List.all_eq_true, List.dropWhile_eq_nil_iff]
  rw [Bool.eq_iff_iff, hall, hall, hs, ht]
  exact hst.words_eq_nil

/-- The words of the rules hold no quotes, so they are found in the code of a text only. -/
def plainWords (words : List String) : Bool :=
  words.all fun word => word.toList.all fun c => !isQuote c

theorem not_quote_of_oneOfWords {words : List String} (hp : plainWords words = true)
    {word : List Char} (h : oneOfWords words word = true) : ∀ c ∈ word, isQuote c = false := by
  have hmem : String.ofList word ∈ words := by simpa [oneOfWords] using h
  have hword := List.all_eq_true.mp (List.all_eq_true.mp hp _ hmem)
  intro c hc
  simpa using hword c (by simpa using hc)

theorem isTypeOnly_eq (hp : plainWords rules.typeWords = true) (h : AlikeTexts (Quiet rules) s t)
    (name : List Char) : isTypeOnly rules s name = isTypeOnly rules t name := by
  have hwords : (Text.words s).all (fun w => oneOfWords rules.typeWords w && isQualifier w) =
      (Text.words t).all fun w => oneOfWords rules.typeWords w && isQualifier w :=
    all_words_eq h fun w hw => not_quote_of_oneOfWords hp (Bool.and_eq_true_iff.mp hw).1
  rw [isTypeOnly, isTypeOnly, isEmpty_eq h, endsWith_eq h [':', ':'] (by decide),
    endsWith_eq h ['.'] (by decide), endsWith_eq h ['.', '.', '.'] (by decide),
    hwords]

/-! ## Types and names -/

theorem typeAndName_of_pointer {before gap gap' name gap'' rest : List Char} {mark : Char}
    (hs : s = before ++ pointerText gap mark gap' name gap'' rest)
    (h : (pointerName.find? s).bind (·.part? .name) =
      some ⟨Text.width (before ++ '(' :: (gap ++ mark :: gap')), name⟩) :
    typeAndName rules s =
      (Text.normalizeSpace (before ++ ('(' :: (gap ++ mark :: gap') ++ (gap'' ++ ')' :: rest))),
        name) := by
  have hlead :
      s = (before ++ '(' :: (gap ++ mark :: gap')) ++ (name ++ (gap'' ++ ')' :: rest)) := by
    rw [hs, pointerText]
    simp
  have hbefore : Text.before s (Text.width (before ++ '(' :: (gap ++ mark :: gap'))) =
      before ++ '(' :: (gap ++ mark :: gap') := by rw [hlead, Text.before_width_append]
  have hsuffix : Text.suffixAt s
      (Text.width (before ++ '(' :: (gap ++ mark :: gap')) + Text.width name) =
        gap'' ++ ')' :: rest := by
    rw [hlead, ← Text.width_append, ← List.append_assoc, Text.suffixAt_width_append]
  rw [typeAndName, h]
  simp only [Capture.stop, hbefore, hsuffix, List.append_assoc]

/-- The type and the name of a declaration that ends in the array brackets given. -/
def splitName (rules : ParameterRules) (core arrays : List Char) : List Char × List Char :=
  match (trailingName.find? core).bind (·.part? .name) with
  | none => (Text.normalizeSpace (core ++ arrays), [])
  | some name =>
    let before := Text.trimEnd (Text.before core name.start)
    if isTypeOnly rules before name.text then (Text.normalizeSpace (core ++ arrays), [])
    else (Text.normalizeSpace (before ++ arrays), name.text)

theorem typeAndName_of_not (h : (pointerName.find? s).bind (·.part? .name) = none)
    {core arrays : List Char}
    (ht : takeArrays (Text.trimEnd s).length (Text.trimEnd s).reverse [] = (core.reverse, arrays)) :
    typeAndName rules s = splitName rules core arrays := by
  rw [typeAndName, h]
  simp only [List.length_reverse, ht, List.reverse_reverse]
  rfl

theorem alike_splitName (hp : plainWords rules.typeWords = true) (h : AlikeTexts (Quiet rules) s t)
    {arrays arrays' : List Char} (ha : AlikeBehind rules arrays arrays') :
    AlikeTexts (Quiet rules) (splitName rules s arrays).1 (splitName rules t arrays').1 ∧
      (splitName rules s arrays).2 = (splitName rules t arrays').2 := by
  have hspace : ∀ raw, Quiet rules raw ' ' := quiet_space rules
  have hall := (AlikeTexts.append_behind h ha).normalizeSpace hspace
  obtain ⟨q, h, hq⟩ := h
  rcases first_cases_trailingName h hq with ⟨hns, hnt⟩ | ⟨a, b, a', b', r, hs, ht, haa, hbb⟩
  · rw [splitName, splitName, trailingName_find?_of_nowhere hns, trailingName_find?_of_nowhere hnt]
    exact ⟨hall, rfl⟩
  · obtain ⟨name, gap, hname, rfl, hsome⟩ := trailingName_find?_of_first hs
    obtain ⟨name', gap', hname', rfl, hsome'⟩ := trailingName_find?_of_first ht
    obtain ⟨heq, hr⟩ := hbb.eq_of_not_closes hq hname.not_closes
    obtain rfl := hname.unique hname' heq
    have hbefore : AlikeTexts (Quiet rules) (Text.trimEnd a) (Text.trimEnd a') :=
      AlikeTexts.trimEnd ⟨r, haa, hr⟩
    have htype := (AlikeTexts.append_behind hbefore ha).normalizeSpace hspace
    rw [splitName, splitName, hsome, hsome']
    dsimp only
    rw [hs.eq_append, ht.eq_append, Text.before_width_append, Text.before_width_append,
      isTypeOnly_eq hp hbefore]
    rw [hs.eq_append, ht.eq_append] at hall
    split
    · exact ⟨hall, rfl⟩
    · exact ⟨htype, rfl⟩

theorem alike_typeAndName (hp : plainWords rules.typeWords = true)
    (h : AlikeTexts (Quiet rules) s t) :
    AlikeTexts (Quiet rules) (typeAndName rules s).1 (typeAndName rules t).1 ∧
      (typeAndName rules s).2 = (typeAndName rules t).2 := by
  have htrim := h.trimEnd
  have hnil : AlikeBehind rules [] [] := fun p hp => ⟨p, .nil p, hp⟩
  obtain ⟨q, h, hq⟩ := h
  rcases first_cases_pointerName h hq with ⟨hns, hnt⟩ | ⟨a, b, a', b', r, hs, ht, haa, hbb⟩
  · obtain ⟨core, core', arrays, arrays', hcore, hcore', hcores, harrays⟩ :=
      alike_takeArrays htrim (Nat.le_refl _) (Nat.le_refl _) hnil
    rw [typeAndName_of_not (pointerName_find?_of_nowhere hns) hcore,
      typeAndName_of_not (pointerName_find?_of_nowhere hnt) hcore']
    exact alike_splitName hp hcores harrays
  · obtain ⟨gap, mark, gap', name, gap'', rest, hpointer, rfl, hsome⟩ :=
      pointerName_find?_of_first hs
    obtain ⟨gap₁, mark₁, gap₁', name₁, gap₁'', rest₁, hpointer', rfl, hsome'⟩ :=
      pointerName_find?_of_first ht
    obtain ⟨rfl, haround⟩ := alike_pointerText hbb hpointer hpointer'
    rw [typeAndName_of_pointer hs.eq_append hsome, typeAndName_of_pointer ht.eq_append hsome']
    exact ⟨AlikeTexts.normalizeSpace (quiet_space rules) ⟨q, haa.append haround, hq⟩, rfl⟩

/-! ## Parameters -/

/-- Parameters with one name and one default sign, whose types differ in literals only. -/
structure Twin (rules : ParameterRules) (a b : Parameter) : Prop where
  name : a.name = b.name
  optional : a.optional = b.optional
  type : AlikeTexts (Quiet rules) a.type.toList b.type.toList

/-- Whether no word that the rules know holds a quote. -/
def plainRules (rules : ParameterRules) : Bool :=
  plainWords rules.modifiers && plainWords rules.typeWords

/-- The words of a declaration behind its modifiers. -/
def unmodified (rules : ParameterRules) (declaration : List Char) : List Char :=
  let bare := if rules.annotations then annotation.replaceAll [' '] declaration else declaration
  Text.join [' '] ((Text.words bare).dropWhile (oneOfWords rules.modifiers))

theorem alike_unmodified (hp : plainWords rules.modifiers = true)
    (h : AlikeTexts (Quiet rules) s t) :
    AlikeTexts (Quiet rules) (unmodified rules s) (unmodified rules t) := by
  have hwords : ∀ {s t : List Char}, AlikeTexts (Quiet rules) s t →
      AlikeTexts (Quiet rules)
        (Text.join [' '] ((Text.words s).dropWhile (oneOfWords rules.modifiers)))
        (Text.join [' '] ((Text.words t).dropWhile (oneOfWords rules.modifiers))) := by
    intro s t h
    obtain ⟨s', t', h', hs, ht⟩ := h.exists_dropWhile_words fun w => not_quote_of_oneOfWords hp
    rw [hs, ht]
    exact h'.normalizeSpace (quiet_space rules)
  rw [unmodified, unmodified]
  split
  · exact hwords (alike_replaceAll h)
  · exact hwords h

/-- The parameter that the words of a declaration and its default make. -/
def ofParts? (rules : ParameterRules) (declaration : List Char) (default : Option (List Char)) :
    Option Parameter :=
  if declaration.isEmpty then none
  else if declaration = ['.', '.', '.'] then some ⟨"...", "...", true, none⟩
  else
    let (type, name) := typeAndName rules declaration
    if type.isEmpty && name.isEmpty then none
    else some ⟨String.ofList name, String.ofList type, default.isSome, default.map String.ofList⟩

theorem ofDeclaration?_eq (rules : ParameterRules) (declaration : List Char) :
    ofDeclaration? rules declaration =
      ofParts? rules (unmodified rules (withoutDefault rules declaration).1)
        (withoutDefault rules declaration).2 := rfl

theorem twin_ofParts? (hp : plainWords rules.typeWords = true) (h : AlikeTexts (Quiet rules) s t)
    {a b : Option (List Char)} (hd : a.isSome = b.isSome) :
    Option.Rel (Twin rules) (ofParts? rules s a) (ofParts? rules t b) := by
  have hdots : s = ['.', '.', '.'] ↔ t = ['.', '.', '.'] := h.eq_word (by decide)
  obtain ⟨htype, hname⟩ := alike_typeAndName hp h
  rw [ofParts?, ofParts?, isEmpty_eq h]
  split
  · exact .none
  · by_cases hs : s = ['.', '.', '.']
    · rw [if_pos hs, if_pos (hdots.mp hs)]
      exact .some ⟨rfl, rfl, AlikeTexts.of_not_quote (by decide)⟩
    · rw [if_neg hs, if_neg fun ht => hs (hdots.mpr ht)]
      dsimp only
      rw [isEmpty_eq htype, hname]
      split
      · exact .none
      · refine .some ⟨rfl, hd, ?_⟩
        simpa using htype

theorem twin_ofDeclaration? (hp : plainRules rules = true) (h : AlikeTexts (Quiet rules) s t) :
    Option.Rel (Twin rules) (ofDeclaration? rules s) (ofDeclaration? rules t) := by
  obtain ⟨hmodifiers, hwords⟩ := Bool.and_eq_true_iff.mp hp
  obtain ⟨hdeclared, hdefault⟩ := alike_withoutDefault h
  rw [ofDeclaration?_eq, ofDeclaration?_eq]
  exact twin_ofParts? hwords (alike_unmodified hmodifiers hdeclared) hdefault

/-- Alike lists declare the same parameters, but for the literals in their types. -/
theorem twins_ofList (hp : plainRules rules = true) (h : AlikeTexts (Quiet rules) s t) :
    List.Forall₂ (Twin rules) (ofList rules s) (ofList rules t) := by
  have htrim := h.trim
  have hvoid : (Text.trim s == ['v', 'o', 'i', 'd']) = (Text.trim t == ['v', 'o', 'i', 'd']) := by
    rw [Bool.eq_iff_iff, beq_iff_eq, beq_iff_eq]
    exact htrim.eq_word (by decide)
  rw [ofList, ofList, isEmpty_eq htrim, hvoid]
  split
  · exact .nil
  · exact List.rel_filterMap (fun _ _ h => twin_ofDeclaration? hp h) (forall₂_splitTopLevel htrim)

end Parameter
end Outline
