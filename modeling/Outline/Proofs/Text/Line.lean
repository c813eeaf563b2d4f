import Outline.Proofs.Text.Boundary
import Outline.Text.Line

/-!
# Lines

Whatever offset is asked for, its line is one of the lines of the text and its column is no less
than one, and offsets in order lie on lines in order.  The lines are the pieces between line feeds.
-/

namespace Outline

namespace Text

theorem length_startsAfterFeeds (offset : Nat) (text : List Char) :
    (startsAfterFeeds offset text).length = text.count '\n' := by
  induction text generalizing offset with
  | nil => rfl
  | cons c text ih =>
    rw [startsAfterFeeds, List.count_cons]
    split
    · next hc =>
      rw [List.length_cons, ih, hc]
      simp
    · next hc =>
      rw [ih]
      simp [hc]

theorem length_linesFrom_le (line text : List Char) :
    (linesFrom line text).length ≤ text.count '\n' + 1 := by
  induction text generalizing line with
  | nil =>
    rw [linesFrom]
    split
    · exact Nat.zero_le _
    · exact Nat.le_refl _
  | cons c text ih =>
    rw [linesFrom, List.count_cons]
    split
    · next hc =>
      have h := ih []
      rw [List.length_cons, hc]
      simp only [BEq.rfl, if_true]
      omega
    · exact Nat.le_trans (ih (c :: line)) (by omega)

/-- A reader sees no more lines than the line feeds start. -/
theorem length_lines_le (text : List Char) : (lines text).length ≤ text.count '\n' + 1 :=
  length_linesFrom_le [] text

end Text

namespace LineIndex

theorem lineOf_mono (index : LineIndex) {a b : Nat} (h : a ≤ b) :
    index.lineOf a ≤ index.lineOf b := by
  refine List.countP_mono_left fun start _ hs => ?_
  simp only [decide_eq_true_eq] at hs ⊢
  omega

theorem lineCount_ofText (text : List Char) :
    (ofText text).lineCount = text.count '\n' + 1 := by
  rw [lineCount, ofText, List.length_cons, Text.length_startsAfterFeeds]

theorem lineOf_le_lineCount (index : LineIndex) (offset : Nat) :
    index.lineOf offset ≤ index.lineCount := List.countP_le_length

theorem one_le_lineOf_ofText (text : List Char) (offset : Nat) :
    1 ≤ (ofText text).lineOf offset := by
  rw [lineOf, Nat.one_le_iff_ne_zero, Nat.ne_zero_iff_zero_lt, List.countP_pos_iff]
  exact ⟨0, List.mem_cons_self, by simp⟩

theorem one_le_columnOf (index : LineIndex) (text : List Char) (offset : Nat) :
    1 ≤ index.columnOf text offset := by
  rw [columnOf]
  split
  · exact Nat.succ_pos _
  · exact Nat.succ_pos _

end LineIndex
end Outline

/-!
## Line feeds

A place of a text lies on the line after as many line feeds as come before it, and the
pieces between line feeds are its lines.  So the lines from that of a place on, where
the place starts a line, are the pieces of the rest of the text.
-/

namespace Outline

namespace Text

theorem startsAfterFeeds_append (offset : Nat) (a b : List Char) :
    startsAfterFeeds offset (a ++ b) =
      startsAfterFeeds offset a ++ startsAfterFeeds (offset + width a) b := by
  induction a generalizing offset with
  | nil => rfl
  | cons c a ih =>
    rw [List.cons_append, startsAfterFeeds, startsAfterFeeds, width_cons]
    split
    · next hc =>
      subst hc
      rw [ih, List.cons_append, Nat.add_assoc]
      rfl
    · rw [ih, Nat.add_assoc]

/-- A line starts after its text has started and no later than the text ends. -/
theorem bounds_of_mem_startsAfterFeeds {offset start : Nat} {text : List Char}
    (h : start ∈ startsAfterFeeds offset text) : offset < start ∧ start ≤ offset + width text := by
  induction text generalizing offset with
  | nil => simp [startsAfterFeeds] at h
  | cons c text ih =>
    have hc : 0 < c.utf8Size := Char.utf8Size_pos c
    rw [startsAfterFeeds] at h
    rw [width_cons]
    split at h
    · next hfeed =>
      have hsize : c.utf8Size = 1 := by rw [hfeed]; rfl
      rcases List.mem_cons.mp h with rfl | h
      · omega
      · have hbounds := ih h
        omega
    · have hbounds := ih h
      omega

/-! ### Pieces -/

theorem splitAt_eq_cons (sep : Char) (text : List Char) :
    ∃ pieces, splitAt sep text = text.takeWhile (· != sep) :: pieces := by
  induction text with
  | nil => exact ⟨[], rfl⟩
  | cons c text ih =>
    obtain ⟨pieces, hpieces⟩ := ih
    rw [splitAt]
    split
    · next hc =>
      subst hc
      exact ⟨splitAt c text, by simp⟩
    · next hc =>
      rw [hpieces]
      exact ⟨pieces, by simp [hc]⟩

theorem splitAt_append_cons (sep : Char) (a b : List Char) :
    splitAt sep (a ++ sep :: b) = splitAt sep a ++ splitAt sep b := by
  induction a with
  | nil => simp [splitAt]
  | cons c a ih =>
    obtain ⟨pieces, hpieces⟩ := splitAt_eq_cons sep a
    rw [List.cons_append, splitAt, splitAt, ih]
    split
    · rfl
    · rw [hpieces]
      rfl

theorem splitAt_append_of_notMem {sep : Char} {a : List Char} (h : sep ∉ a) (text : List Char) :
    splitAt sep (a ++ text) = (splitAt sep text).modifyHead (a ++ ·) := by
  obtain ⟨pieces, hpieces⟩ := splitAt_eq_cons sep text
  rw [hpieces]
  induction a with
  | nil => exact hpieces
  | cons c a ih =>
    rw [List.cons_append, splitAt, if_neg (List.ne_of_not_mem_cons h).symm,
      ih (List.not_mem_of_not_mem_cons h)]
    rfl

theorem length_splitAt (sep : Char) (text : List Char) :
    (splitAt sep text).length = text.count sep + 1 := by
  induction text with
  | nil => rfl
  | cons c text ih =>
    obtain ⟨pieces, hpieces⟩ := splitAt_eq_cons sep text
    rw [splitAt]
    split
    · next hc =>
      subst hc
      rw [List.length_cons, ih, List.count_cons_self]
    · next hc =>
      rw [hpieces] at ih ⊢
      rw [List.count_cons_of_ne hc]
      exact ih

/-- Whether a place in front of which a text stands is the start of a line. -/
def startsLine (before : List Char) : Bool := before.getLast?.all (· == '\n')

/-- The lines from one on that starts after a text. -/
theorem drop_splitAt {before rest : List Char} (h : startsLine before = true) :
    (splitAt '\n' (before ++ rest)).drop (before.count '\n') = splitAt '\n' rest := by
  rcases List.eq_nil_or_concat before with rfl | ⟨lead, last, hlead⟩
  · rfl
  · rw [List.concat_eq_append] at hlead
    subst hlead
    obtain rfl : last = '\n' := by simpa [startsLine] using h
    rw [List.append_assoc, List.singleton_append, splitAt_append_cons, List.count_append,
      List.count_singleton_self, ← length_splitAt, List.drop_left]

/-! ### The first line with code -/

/-- The first of some lines that is not blank, without the blanks in front of it. -/
def firstCode? (lines : List (List Char)) : Option (List Char) :=
  (lines.map trimStart).find? (!·.isEmpty)

theorem firstCode?_cons (line : List Char) (lines : List (List Char)) :
    firstCode? (line :: lines) =
      if (trimStart line).isEmpty then firstCode? lines else some (trimStart line) := by
  rw [firstCode?, List.map_cons, List.find?_cons, firstCode?]
  cases (trimStart line).isEmpty <;> rfl

/-- A word that has no line feed stands on one line. -/
theorem startsWith_takeWhile {sep : Char} {word : List Char} (h : sep ∉ word) (text : List Char) :
    startsWith (text.takeWhile (· != sep)) word = startsWith text word := by
  induction word generalizing text with
  | nil => rfl
  | cons w word ih =>
    have hw : sep ≠ w := List.ne_of_not_mem_cons h
    have hword : sep ∉ word := List.not_mem_of_not_mem_cons h
    cases text with
    | nil => rfl
    | cons c text =>
      by_cases hc : c = sep
      · subst hc
        simp [startsWith, dropLead?, Ne.symm hw]
      · rw [List.takeWhile_cons_of_pos (by simpa using hc)]
        by_cases hwc : w = c
        · simpa [startsWith, dropLead?, hwc] using ih hword text
        · simp [startsWith, dropLead?, hwc]

/-- A text starts with a word, blanks aside, when its first line with code does. -/
theorem startsWith_trimStart {word : List Char} (hne : word ≠ []) (h : '\n' ∉ word)
    (text : List Char) :
    startsWith (trimStart text) word =
      (firstCode? (splitAt '\n' text)).any (startsWith · word) := by
  induction text with
  | nil =>
    cases word with
    | nil => exact absurd rfl hne
    | cons w word => rfl
  | cons c text ih =>
    obtain ⟨pieces, hpieces⟩ := splitAt_eq_cons '\n' text
    by_cases hfeed : c = '\n'
    · subst hfeed
      have hempty : (trimStart []).isEmpty = true := rfl
      rw [splitAt, if_pos rfl, firstCode?_cons, if_pos hempty, ← ih]
      rfl
    · rw [splitAt, if_neg hfeed, hpieces]
      dsimp only
      rw [hpieces] at ih
      by_cases hblank : isBlank c = true
      · have htrim : ∀ line, trimStart (c :: line) = trimStart line :=
          fun line => List.dropWhile_cons_of_pos hblank
        rw [firstCode?_cons, htrim, htrim, ih, firstCode?_cons]
      · have htrim : ∀ line, trimStart (c :: line) = c :: line :=
          fun line => List.dropWhile_cons_of_neg hblank
        rw [firstCode?_cons, htrim, htrim, if_neg (by simp), Option.any_some,
          ← startsWith_takeWhile h (c :: text),
          List.takeWhile_cons_of_pos (by simpa using hfeed)]

end Text

namespace LineIndex

/-- A place lies on the line after as many line feeds as come before it. -/
theorem lineOf_width (before rest : List Char) :
    (ofText (before ++ rest)).lineOf (Text.width before) = before.count '\n' + 1 := by
  have hle : Text.width before ≤ Text.width (before ++ rest) := by
    rw [Text.width_append]
    omega
  rw [lineOf, ofText]
  dsimp only
  rw [Nat.min_eq_left hle, Text.startsAfterFeeds_append, List.countP_cons, List.countP_append]
  have hbefore : (Text.startsAfterFeeds 0 before).countP (· ≤ Text.width before) =
      before.count '\n' := by
    rw [← Text.length_startsAfterFeeds 0 before, List.countP_eq_length]
    intro start hs
    have hbounds := Text.bounds_of_mem_startsAfterFeeds hs
    simp only [decide_eq_true_eq]
    omega
  have hrest : (Text.startsAfterFeeds (0 + Text.width before) rest).countP
      (· ≤ Text.width before) = 0 := by
    rw [List.countP_eq_zero]
    intro start hs
    have hbounds := Text.bounds_of_mem_startsAfterFeeds hs
    simp only [decide_eq_true_eq]
    omega
  rw [hbefore, hrest]
  simp

end LineIndex
end Outline
