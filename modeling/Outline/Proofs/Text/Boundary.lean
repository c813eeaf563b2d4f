import Outline.Text.Blank

/-!
# Places between characters

An offset is a boundary of a text when some of the text's characters, read from
the left, are that wide together.  Cutting a text succeeds exactly at boundaries,
and the lemmas here turn each operation that takes an offset into an equation
between a text and the pieces it falls into.
-/

namespace Outline
namespace Text

/-- What holds of the characters of a text is decided along the text. -/
instance (priority := 2000) decidableForallMem (p : Char → Prop) [DecidablePred p]
    (text : List Char) : Decidable (∀ c ∈ text, p c) :=
  List.decidableBAll p text

/-- An offset between two characters of a text, or at one of its ends. -/
def IsBoundary (text : List Char) (offset : Nat) : Prop :=
  ∃ before after, text = before ++ after ∧ width before = offset

/-! ## Cutting at the width of a prefix -/

theorem dropWidth?_width_append (a b : List Char) : dropWidth? (width a) (a ++ b) = some b := by
  induction a with
  | nil => cases b <;> rfl
  | cons c a ih =>
    have hc : 0 < c.utf8Size := Char.utf8Size_pos c
    obtain ⟨n, hn⟩ : ∃ n, width (c :: a) = n + 1 := ⟨width (c :: a) - 1, by rw [width_cons]; omega⟩
    have ha : n + 1 - c.utf8Size = width a := by rw [← hn, width_cons]; omega
    rw [hn, List.cons_append, dropWidth?, if_pos (by rw [← hn, width_cons]; omega), ha, ih]

theorem takeWidth?_width_append (a b : List Char) : takeWidth? (width a) (a ++ b) = some a := by
  induction a with
  | nil => cases b <;> rfl
  | cons c a ih =>
    have hc : 0 < c.utf8Size := Char.utf8Size_pos c
    obtain ⟨n, hn⟩ : ∃ n, width (c :: a) = n + 1 := ⟨width (c :: a) - 1, by rw [width_cons]; omega⟩
    have ha : n + 1 - c.utf8Size = width a := by rw [← hn, width_cons]; omega
    rw [hn, List.cons_append, takeWidth?, if_pos (by rw [← hn, width_cons]; omega), ha, ih]
    rfl

theorem eq_append_of_dropWidth? {text rest : List Char} {n : Nat}
    (h : dropWidth? n text = some rest) : ∃ before, text = before ++ rest ∧ width before = n := by
  induction text generalizing n with
  | nil =>
    cases n with
    | zero => exact ⟨[], by simpa [dropWidth?] using h, rfl⟩
    | succ n => simp [dropWidth?] at h
  | cons c text ih =>
    cases n with
    | zero => exact ⟨[], by simpa [dropWidth?] using h, rfl⟩
    | succ n =>
      rw [dropWidth?] at h
      by_cases hc : c.utf8Size ≤ n + 1
      · rw [if_pos hc] at h
        obtain ⟨before, rfl, hw⟩ := ih h
        exact ⟨c :: before, rfl, by rw [width_cons]; omega⟩
      · rw [if_neg hc] at h
        exact absurd h (by simp)

theorem eq_append_of_takeWidth? {text before : List Char} {n : Nat}
    (h : takeWidth? n text = some before) : ∃ rest, text = before ++ rest ∧ width before = n := by
  induction text generalizing n before with
  | nil =>
    cases n with
    | zero =>
      have hb : before = [] := by simpa [takeWidth?] using h.symm
      exact ⟨[], by rw [hb]; rfl, by rw [hb]; rfl⟩
    | succ n => simp [takeWidth?] at h
  | cons c text ih =>
    cases n with
    | zero =>
      have hb : before = [] := by simpa [takeWidth?] using h.symm
      exact ⟨c :: text, by rw [hb]; rfl, by rw [hb]; rfl⟩
    | succ n =>
      rw [takeWidth?] at h
      by_cases hc : c.utf8Size ≤ n + 1
      · rw [if_pos hc, Option.map_eq_some_iff] at h
        obtain ⟨before, hb, rfl⟩ := h
        obtain ⟨rest, rfl, hw⟩ := ih hb
        exact ⟨rest, rfl, by rw [width_cons]; omega⟩
      · rw [if_neg hc] at h
        exact absurd h (by simp)

/-- Of two ways to cut one text the narrower is cut out of the wider. -/
theorem append_of_width_le {a b a' b' : List Char} (h : a ++ b = a' ++ b')
    (hw : width a ≤ width a') : ∃ d, a' = a ++ d ∧ b = d ++ b' := by
  induction a generalizing a' with
  | nil => exact ⟨a', rfl, h⟩
  | cons c a ih =>
    cases a' with
    | nil =>
      have hc : 0 < c.utf8Size := Char.utf8Size_pos c
      rw [width_cons, width_nil] at hw
      omega
    | cons c' a' =>
      rw [List.cons_append, List.cons_append, List.cons.injEq] at h
      obtain ⟨rfl, h⟩ := h
      rw [width_cons, width_cons] at hw
      obtain ⟨d, rfl, rfl⟩ := ih h (by omega)
      exact ⟨d, rfl, rfl⟩

theorem width_reverse (text : List Char) : width text.reverse = width text := by
  induction text with
  | nil => rfl
  | cons c text ih =>
    rw [List.reverse_cons, width_append, ih, width_cons, width_cons, width_nil]
    omega

theorem length_le_width (text : List Char) : text.length ≤ width text := by
  induction text with
  | nil => exact Nat.le_refl 0
  | cons c text ih =>
    have hc : 0 < c.utf8Size := Char.utf8Size_pos c
    rw [List.length_cons, width_cons]
    omega

/-- ASCII letters, digits and the underscore have one byte each. -/
theorem utf8Size_eq_one_of_plain {c : Char} (h : (c.isAlphanum || c == '_') = true) :
    c.utf8Size = 1 := by
  have hupper : c.isUpper = (decide ('A' ≤ c) && decide (c ≤ 'Z')) := Bool.decide_and _ _
  have hlower : c.isLower = (decide ('a' ≤ c) && decide (c ≤ 'z')) := rfl
  have hdigit : c.isDigit = (decide ('0' ≤ c) && decide (c ≤ '9')) := rfl
  have halphanum : c.isAlphanum = (c.isUpper || c.isLower || c.isDigit) := rfl
  rw [Char.utf8Size_eq_one_iff]
  simp only [halphanum, hupper, hlower, hdigit, Bool.or_eq_true, Bool.and_eq_true,
    decide_eq_true_eq, beq_iff_eq] at h
  rcases h with ((h | h) | h) | rfl
  · exact Nat.le_trans (UInt32.le_iff_toNat_le.mp h.2) (by decide)
  · exact Nat.le_trans (UInt32.le_iff_toNat_le.mp h.2) (by decide)
  · exact Nat.le_trans (UInt32.le_iff_toNat_le.mp h.2) (by decide)
  · decide

theorem width_eq_length {text : List Char} (h : ∀ c ∈ text, c.utf8Size = 1) :
    width text = text.length := by
  induction text with
  | nil => rfl
  | cons c text ih =>
    rw [width_cons, List.length_cons, h c List.mem_cons_self,
      ih fun d hd => h d (List.mem_cons_of_mem c hd), Nat.add_comm]

/-! ## Boundaries -/

theorem isBoundary_width (text : List Char) : IsBoundary text (width text) :=
  ⟨text, [], (List.append_nil text).symm, rfl⟩

theorem IsBoundary.le_width {text : List Char} {offset : Nat} (h : IsBoundary text offset) :
    offset ≤ width text := by
  obtain ⟨a, b, rfl, rfl⟩ := h
  rw [width_append]
  exact Nat.le_add_right _ _

/-- A text falls into three pieces at two boundaries. -/
theorem IsBoundary.split {text : List Char} {start stop : Nat} (hs : IsBoundary text start)
    (he : IsBoundary text stop) (hle : start ≤ stop) :
    ∃ a b c, text = a ++ b ++ c ∧ width a = start ∧ width (a ++ b) = stop := by
  obtain ⟨a, rest, rfl, ha⟩ := hs
  obtain ⟨a', c, hc, ha'⟩ := he
  obtain ⟨d, rfl, rfl⟩ := append_of_width_le hc (by omega)
  exact ⟨a, d, c, by rw [List.append_assoc], ha, ha'⟩

theorem isBoundary_of_char {text before after : List Char} {c : Char} {offset : Nat}
    (h : text = before ++ c :: after) (hw : width before = offset) :
    IsBoundary text offset ∧ IsBoundary text (offset + c.utf8Size) := by
  refine ⟨⟨before, c :: after, h, hw⟩, before ++ [c], after, by rw [h, List.append_assoc]; rfl, ?_⟩
  rw [width_append, hw]
  simp

/-! ## The operations that take offsets -/

/-- A slice is the middle one of three pieces. -/
theorem slice?_eq_some_iff {text part : List Char} {start stop : Nat} :
    slice? text start stop = some part ↔
      ∃ before after, text = before ++ part ++ after ∧ width before = start ∧
        width (before ++ part) = stop := by
  rw [slice?]
  constructor
  · intro h
    by_cases hle : start ≤ stop
    · rw [if_pos hle, Option.bind_eq_some_iff] at h
      obtain ⟨rest, hd, ht⟩ := h
      obtain ⟨before, rfl, hb⟩ := eq_append_of_dropWidth? hd
      obtain ⟨after, rfl, hp⟩ := eq_append_of_takeWidth? ht
      exact ⟨before, after, by rw [List.append_assoc], hb, by rw [width_append]; omega⟩
    · rw [if_neg hle] at h
      exact absurd h (by simp)
  · rintro ⟨before, after, rfl, rfl, rfl⟩
    rw [width_append, if_pos (Nat.le_add_right _ _), List.append_assoc, dropWidth?_width_append,
      Option.bind_some, Nat.add_sub_cancel_left, takeWidth?_width_append]

/-- A slice between two boundaries that are in order succeeds. -/
theorem slice?_isSome {text : List Char} {start stop : Nat} (hs : IsBoundary text start)
    (he : IsBoundary text stop) (hle : start ≤ stop) :
    ∃ part, slice? text start stop = some part := by
  obtain ⟨a, b, c, h, ha, hb⟩ := hs.split he hle
  exact ⟨b, slice?_eq_some_iff.mpr ⟨a, c, h, ha, hb⟩⟩

theorem charAt?_width_append (a b : List Char) : charAt? (a ++ b) (width a) = b.head? := by
  rw [charAt?, dropWidth?_width_append, Option.bind_some]

theorem charAt?_eq_some_iff {text : List Char} {offset : Nat} {c : Char} :
    charAt? text offset = some c ↔
      ∃ before after, text = before ++ c :: after ∧ width before = offset := by
  rw [charAt?, Option.bind_eq_some_iff]
  constructor
  · rintro ⟨rest, hd, hh⟩
    obtain ⟨before, rfl, hb⟩ := eq_append_of_dropWidth? hd
    obtain ⟨after, rfl⟩ := List.head?_eq_some_iff.mp hh
    exact ⟨before, after, rfl, hb⟩
  · rintro ⟨before, after, rfl, rfl⟩
    exact ⟨c :: after, dropWidth?_width_append before _, rfl⟩

theorem suffixAt_width_append (a b : List Char) : suffixAt (a ++ b) (width a) = b := by
  rw [suffixAt, dropWidth?_width_append, Option.getD_some]

theorem before_width_append (a b : List Char) : before (a ++ b) (width a) = a := by
  rw [before, takeWidth?_width_append, Option.getD_some]

/-- The character found is one of those looked for. -/
theorem eq_append_of_find? {marks text : List Char} {n : Nat} (h : find? marks text = some n) :
    ∃ before c after, text = before ++ c :: after ∧ width before = n ∧ c ∈ marks := by
  induction text generalizing n with
  | nil => simp [find?] at h
  | cons c text ih =>
    rw [find?] at h
    by_cases hc : marks.contains c = true
    · rw [if_pos hc, Option.some.injEq] at h
      exact ⟨[], c, text, rfl, h, by simpa using hc⟩
    · rw [if_neg hc, Option.map_eq_some_iff] at h
      obtain ⟨m, hm, rfl⟩ := h
      obtain ⟨before, d, after, rfl, hw, hd⟩ := ih hm
      exact ⟨c :: before, d, after, rfl, by rw [width_cons, hw], hd⟩

/-- The first of some characters is where none of them is in front of it. -/
theorem find?_append {marks text rest : List Char} {c : Char} (h : ∀ x ∈ text, x ∉ marks)
    (hc : c ∈ marks) : find? marks (text ++ c :: rest) = some (width text) := by
  induction text with
  | nil =>
    rw [List.nil_append, find?, if_pos (by simpa using hc)]
    rfl
  | cons x text ih =>
    obtain ⟨hx, htext⟩ := List.forall_mem_cons.mp h
    rw [List.cons_append, find?, if_neg (by simpa using hx), ih htext, Option.map_some, width_cons]

/-- A character that occurs ends the run of others in front of it. -/
theorem exists_takeWhile_append {x : Char} {text : List Char} (h : x ∈ text) :
    ∃ more, text = text.takeWhile (· != x) ++ x :: more := by
  induction text with
  | nil => simp at h
  | cons c text ih =>
    by_cases hc : c = x
    · subst hc
      exact ⟨text, by simp⟩
    · obtain ⟨more, hmore⟩ := ih ((List.mem_cons.mp h).resolve_left (Ne.symm hc))
      refine ⟨more, ?_⟩
      rw [List.takeWhile_cons_of_pos (by simpa using hc), List.cons_append, ← hmore]

theorem dropLead?_eq_some_iff {word text rest : List Char} :
    dropLead? word text = some rest ↔ text = word ++ rest := by
  induction word generalizing text with
  | nil => simp [dropLead?, eq_comm]
  | cons w word ih =>
    cases text with
    | nil => simp [dropLead?]
    | cons c text =>
      rw [dropLead?, List.cons_append, List.cons.injEq]
      by_cases h : w = c
      · rw [if_pos h, ih]
        simp [h]
      · rw [if_neg h]
        simp [Ne.symm h]

/-- What comes behind a text and cannot go on with a word has no part in it. -/
theorem dropLead?_append {word text tail : List Char}
    (h : ∀ c, tail.head? = some c → c ∉ word) :
    dropLead? word (text ++ tail) = (dropLead? word text).map (· ++ tail) := by
  induction word generalizing text with
  | nil => rfl
  | cons w word ih =>
    cases text with
    | nil =>
      cases tail with
      | nil => rfl
      | cons c tail =>
        have hne : w ≠ c := fun heq => h c rfl (heq ▸ List.mem_cons_self)
        exact if_neg hne
    | cons c text =>
      rw [List.cons_append, dropLead?, dropLead?,
        ih fun c hc hmem => h c hc (List.mem_cons_of_mem w hmem)]
      split <;> rfl

theorem startsWith_append {word text tail : List Char}
    (h : ∀ c, tail.head? = some c → c ∉ word) :
    startsWith (text ++ tail) word = startsWith text word := by
  rw [startsWith, dropLead?_append h, Option.isSome_map, startsWith]

theorem startsWith_iff {text word : List Char} :
    startsWith text word = true ↔ ∃ rest, text = word ++ rest := by
  rw [startsWith, Option.isSome_iff_exists]
  simp only [dropLead?_eq_some_iff]

theorem eq_append_of_dropTrail? {word text rest : List Char}
    (h : dropTrail? word text = some rest) : text = rest ++ word := by
  rw [dropTrail?, Option.map_eq_some_iff] at h
  obtain ⟨r, hr, rfl⟩ := h
  rw [dropLead?_eq_some_iff] at hr
  rw [← List.reverse_reverse text, hr, List.reverse_append, List.reverse_reverse]

/-- What is trimmed off a text stands at its end. -/
theorem trimEnd_append (text : List Char) : ∃ blanks, text = trimEnd text ++ blanks := by
  refine ⟨(text.reverse.takeWhile isBlank).reverse, ?_⟩
  rw [trimEnd, ← List.reverse_append, List.takeWhile_append_dropWhile, List.reverse_reverse]

/-- From a boundary, or from past the end, blanks are skipped up to a boundary
that is no further back. -/
theorem isBoundary_skipBlanks {text : List Char} {start : Nat}
    (h : IsBoundary text start ∨ width text ≤ start) : IsBoundary text (skipBlanks text start) := by
  rw [skipBlanks]
  split
  · next rest hd =>
    obtain ⟨before, rfl, hb⟩ := eq_append_of_dropWidth? hd
    refine ⟨before ++ rest.takeWhile isAsciiBlank, rest.dropWhile isAsciiBlank, ?_, ?_⟩
    · rw [List.append_assoc, List.takeWhile_append_dropWhile]
    · rw [width_append, hb]
  · next hd =>
    rcases h with ⟨a, b, rfl, rfl⟩ | h
    · rw [dropWidth?_width_append] at hd
      exact absurd hd (by simp)
    · rw [Nat.min_eq_right h]
      exact isBoundary_width text

theorem le_skipBlanks {text : List Char} {start : Nat} (h : start ≤ width text) :
    start ≤ skipBlanks text start := by
  rw [skipBlanks]
  split
  · exact Nat.le_add_right _ _
  · exact Nat.le_min.mpr ⟨Nat.le_refl _, h⟩

/-- A text is cut in one way behind so many bytes. -/
theorem append_inj_of_width {a b c d : List Char} (h : a ++ b = c ++ d) (hw : width a = width c) :
    a = c ∧ b = d := by
  have hcut := takeWidth?_width_append a b
  rw [h, hw, takeWidth?_width_append, Option.some.injEq] at hcut
  exact ⟨hcut.symm, List.append_cancel_left (hcut ▸ h)⟩

/-- Blanks are skipped up to a character that is none, wherever the text goes on behind it. -/
theorem skipBlanks_up_to {c : Char} (hc : isAsciiBlank c = false) (before gap rest : List Char) :
    skipBlanks (before ++ (gap ++ c :: rest)) (width before) =
      width before + width (gap.takeWhile isAsciiBlank) := by
  rw [skipBlanks, dropWidth?_width_append]
  show width before + width ((gap ++ c :: rest).takeWhile isAsciiBlank) = _
  rw [List.takeWhile_append]
  split
  · next hall =>
    rw [List.takeWhile_cons_of_neg (by simp [hc]), List.append_nil,
      (List.takeWhile_prefix isAsciiBlank).eq_of_length hall]
  · rfl

end Text
end Outline
