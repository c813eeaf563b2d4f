import Mathlib.Data.Prod.Lex
import Outline.Proofs.Text.Line
import Outline.Proofs.Text.Utf8

/-!
# Line and column of a place

The line of an offset is found by a search by halving among the starts of lines.  It is one
more than the number of line feeds before the offset, its start is the last one that is not
behind the offset, and two places between characters that have the same line and the same
column are one place.
-/

namespace Outline

namespace Text

/-- The number of line feeds before a byte offset, which may lie inside a character. -/
def feedsBefore (text : List Char) (offset : Nat) : Nat :=
  ((Utf8.encode text).take offset).count 0x0A

theorem feed_notMem_utf8EncodeChar {c : Char} (h : c ≠ '\n') :
    (0x0A : UInt8) ∉ String.utf8EncodeChar c := by
  intro hmem
  by_cases hascii : c.toNat < 128
  · rw [Utf8.utf8EncodeChar_of_ascii hascii, List.mem_singleton] at hmem
    have hcode : c.toNat = 10 := by
      rw [← Utf8.toNat_ofNat (n := c.toNat) (by omega), ← hmem]
      rfl
    exact h (by rw [← Char.ofNat_toNat c, hcode])
  · have hle := Utf8.le_of_mem_utf8EncodeChar (by omega) _ hmem
    exact absurd hle (by decide)

/-- As many lines start up to an offset as there are line feeds before it. -/
theorem countP_startsAfterFeeds (base n : Nat) (text : List Char) :
    (startsAfterFeeds base text).countP (· ≤ base + n) = feedsBefore text n := by
  -- No line starts up to an offset that is not behind the first character.
  have hnone : ∀ {start reach : Nat} {text : List Char}, reach ≤ start →
      (startsAfterFeeds start text).countP (· ≤ reach) = 0 := by
    intro start reach text hle
    rw [List.countP_eq_zero]
    intro s hs
    have hbounds := bounds_of_mem_startsAfterFeeds hs
    simp only [decide_eq_true_eq]
    omega
  induction text generalizing base n with
  | nil => simp [startsAfterFeeds, feedsBefore, Utf8.encode]
  | cons c text ih =>
    rw [startsAfterFeeds, feedsBefore, Utf8.encode_cons]
    split
    · next hc =>
      subst hc
      rw [List.countP_cons]
      cases n with
      | zero => rw [hnone (by omega)]; simp
      | succ n =>
        have hrest := ih (base + 1) n
        rw [show base + 1 + n = base + (n + 1) by omega] at hrest
        rw [hrest, Utf8.utf8EncodeChar_of_ascii (by decide), feedsBefore]
        simp
    · next hc =>
      rw [List.take_append, List.count_append, String.length_utf8EncodeChar,
        List.count_eq_zero.mpr fun hm => feed_notMem_utf8EncodeChar hc (List.mem_of_mem_take hm),
        Nat.zero_add]
      by_cases hn : c.utf8Size ≤ n
      · have hrest := ih (base + c.utf8Size) (n - c.utf8Size)
        rw [show base + c.utf8Size + (n - c.utf8Size) = base + n by omega] at hrest
        rw [hrest, feedsBefore]
      · rw [hnone (by omega), Nat.sub_eq_zero_of_le (by omega)]
        simp

/-- Lines start one behind the other. -/
theorem pairwise_startsAfterFeeds (offset : Nat) (text : List Char) :
    (startsAfterFeeds offset text).Pairwise (· < ·) := by
  induction text generalizing offset with
  | nil => exact List.Pairwise.nil
  | cons c text ih =>
    rw [startsAfterFeeds]
    split
    · exact List.pairwise_cons.mpr
        ⟨fun s hs => (bounds_of_mem_startsAfterFeeds hs).1, ih (offset + 1)⟩
    · exact ih _

/-- A line starts between two characters. -/
theorem isBoundary_of_mem_startsAfterFeeds {base start : Nat} {text : List Char}
    (h : start ∈ startsAfterFeeds base text) : IsBoundary text (start - base) := by
  have hbounds := bounds_of_mem_startsAfterFeeds h
  induction text generalizing base with
  | nil => cases h
  | cons c text ih =>
    -- What is a boundary of the rest is one of the text, behind its first character.
    have hshift : ∀ n, IsBoundary text n → IsBoundary (c :: text) (c.utf8Size + n) := by
      rintro n ⟨a, b, rfl, rfl⟩
      exact ⟨c :: a, b, rfl, rfl⟩
    rw [startsAfterFeeds] at h
    split at h
    · next hc =>
      have hsize : c.utf8Size = 1 := by rw [hc]; rfl
      rcases List.mem_cons.mp h with rfl | h
      · rw [Nat.add_sub_cancel_left, ← hsize]
        exact hshift 0 ⟨[], text, rfl, rfl⟩
      · have hlater := bounds_of_mem_startsAfterFeeds h
        rw [show start - base = c.utf8Size + (start - (base + 1)) by omega]
        exact hshift _ (ih h hlater)
    · have hlater := bounds_of_mem_startsAfterFeeds h
      rw [show start - base = c.utf8Size + (start - (base + c.utf8Size)) by omega]
      exact hshift _ (ih h hlater)

end Text

/-! ## A search by halving -/

/-- What a search in a sorted list answers. -/
inductive Searched
  /-- The entry stands at an index. -/
  | hit (index : Nat)
  /-- The entry is missing, and would have to stand at an index. -/
  | miss (index : Nat)
  deriving DecidableEq, Repr

namespace Searched

/-- The line that an answer among the starts of lines stands for. -/
def line : Searched → Nat
  | hit index => index + 1
  | miss index => index

end Searched

/-- Look for an entry by halving the range of indices in which it can stand. -/
def searchFrom (entries : List Nat) (target low high : Nat) : Searched :=
  if low < high then
    let middle := low + (high - low) / 2
    match entries[middle]? with
    | none => .miss middle
    | some entry =>
      if entry = target then .hit middle
      else if entry < target then searchFrom entries target (middle + 1) high
      else searchFrom entries target low middle
  else .miss low
termination_by high - low

def search (entries : List Nat) (target : Nat) : Searched :=
  searchFrom entries target 0 entries.length

section

variable {entries : List Nat}

/-- In a sorted list the entries that are no greater than a bound are those in front. -/
theorem le_iff_lt_countP (hs : entries.Pairwise (· < ·)) {i entry bound : Nat}
    (h : entries[i]? = some entry) : entry ≤ bound ↔ i < entries.countP (· ≤ bound) := by
  induction entries generalizing i with
  | nil => cases h
  | cons first entries ih =>
    obtain ⟨hfirst, hrest⟩ := List.pairwise_cons.mp hs
    rw [List.countP_cons]
    by_cases hb : first ≤ bound
    · rw [if_pos (decide_eq_true hb)]
      cases i with
      | zero =>
        obtain rfl : first = entry := Option.some.inj h
        exact iff_of_true hb (Nat.succ_pos _)
      | succ i => rw [ih hrest h, Nat.succ_lt_succ_iff]
    · have hgreater : ∀ e ∈ first :: entries, ¬ e ≤ bound := by
        intro e he
        rcases List.mem_cons.mp he with rfl | he
        · exact hb
        · have := hfirst e he
          omega
      have hzero : entries.countP (· ≤ bound) = 0 := List.countP_eq_zero.mpr fun e he => by
        simpa using hgreater e (List.mem_cons_of_mem _ he)
      rw [hzero, if_neg (by simpa using hb)]
      exact iff_of_false (hgreater entry (List.mem_of_getElem? h)) (by omega)

theorem searchFrom_line (hs : entries.Pairwise (· < ·)) {target low high : Nat}
    (hl : low ≤ entries.countP (· ≤ target)) (hh : entries.countP (· ≤ target) ≤ high)
    (hlen : high ≤ entries.length) :
    (searchFrom entries target low high).line = entries.countP (· ≤ target) := by
  fun_induction searchFrom entries target low high with
  | case1 low high hlt middle hnone =>
    rw [List.getElem?_eq_none_iff] at hnone
    omega
  | case2 low high hlt middle hentry =>
    have hfront := (le_iff_lt_countP hs hentry).mp (Nat.le_refl target)
    -- The entry behind the one that is hit is greater.
    have hback : ¬ middle + 1 < entries.countP (· ≤ target) := by
      intro hback
      have hin : middle + 1 < entries.length := by omega
      have hle := (le_iff_lt_countP hs (List.getElem?_eq_getElem hin)).mpr hback
      obtain ⟨hm, hmiddle⟩ := List.getElem?_eq_some_iff.mp hentry
      have hlt' := List.pairwise_iff_getElem.mp hs middle (middle + 1) hm hin (Nat.lt_succ_self _)
      omega
    rw [Searched.line]
    omega
  | case3 low high hlt middle entry hentry hne hless ih =>
    exact ih ((le_iff_lt_countP hs hentry).mp (Nat.le_of_lt hless)) hh hlen
  | case4 low high hlt middle entry hentry hne hless ih =>
    have hnot := mt (le_iff_lt_countP hs hentry).mpr (by omega : ¬ entry ≤ target)
    exact ih hl (by omega) (by omega)
  | case5 low high hlt =>
    rw [Searched.line]
    omega

/-- A search in a sorted list tells how many entries are no greater than its target. -/
theorem search_line (hs : entries.Pairwise (· < ·)) (target : Nat) :
    (search entries target).line = entries.countP (· ≤ target) :=
  searchFrom_line hs (Nat.zero_le _) List.countP_le_length (Nat.le_refl _)

end

/-! ## Lines and columns -/

namespace LineIndex

theorem pairwise_starts (text : List Char) : (ofText text).starts.Pairwise (· < ·) :=
  List.pairwise_cons.mpr ⟨fun _ hs => Nat.lt_of_le_of_lt (Nat.zero_le _)
    (Text.bounds_of_mem_startsAfterFeeds hs).1, Text.pairwise_startsAfterFeeds 0 text⟩

theorem lineOf_eq_feedsBefore (text : List Char) (offset : Nat) :
    (ofText text).lineOf offset = Text.feedsBefore text (min offset (Text.width text)) + 1 := by
  have h := Text.countP_startsAfterFeeds 0 (min offset (Text.width text)) text
  rw [Nat.zero_add] at h
  rw [← h]
  exact List.countP_cons_of_pos (by simp)

/-- A line starts no further back than the places on it. -/
theorem lineStart_lineOf_le (text : List Char) (offset : Nat) :
    (ofText text).lineStart ((ofText text).lineOf offset) ≤ min offset (Text.width text) := by
  have hone := one_le_lineOf_ofText text offset
  have hle := (ofText text).lineOf_le_lineCount offset
  have hin : (ofText text).lineOf offset - 1 < (ofText text).starts.length := by
    rw [lineCount] at hle
    omega
  rw [lineStart, List.getElem?_eq_getElem hin, Option.getD_some,
    le_iff_lt_countP (pairwise_starts text) (List.getElem?_eq_getElem hin)]
  show (ofText text).lineOf offset - 1 < (ofText text).lineOf offset
  omega

/-- The next line starts behind them. -/
theorem lt_lineStart_succ {text : List Char} {offset : Nat}
    (h : (ofText text).lineOf offset ≠ (ofText text).lineCount) :
    min offset (Text.width text) < (ofText text).lineStart ((ofText text).lineOf offset + 1) := by
  have hle := (ofText text).lineOf_le_lineCount offset
  have hin : (ofText text).lineOf offset < (ofText text).starts.length := by
    rw [lineCount] at h hle
    omega
  rw [lineStart, Nat.add_sub_cancel, List.getElem?_eq_getElem hin, Option.getD_some,
    ← Nat.not_le, le_iff_lt_countP (pairwise_starts text) (List.getElem?_eq_getElem hin)]
  exact Nat.lt_irrefl _

theorem lineOf_min (text : List Char) (offset : Nat) :
    (ofText text).lineOf (min offset (Text.width text)) = (ofText text).lineOf offset := by
  rw [lineOf_eq_feedsBefore, lineOf_eq_feedsBefore, Nat.min_assoc, Nat.min_self]

/-- Lines start between characters. -/
theorem isBoundary_lineStart (text : List Char) (line : Nat) :
    Text.IsBoundary text ((ofText text).lineStart line) := by
  rw [lineStart]
  cases hstart : (ofText text).starts[line - 1]? with
  | none => exact Text.isBoundary_width text
  | some start =>
    rcases List.mem_cons.mp (List.mem_of_getElem? hstart) with rfl | hmem
    · exact ⟨[], text, rfl, rfl⟩
    · simpa using Text.isBoundary_of_mem_startsAfterFeeds hmem

/-- The column of a place between characters counts the characters from the start of its line. -/
theorem exists_columnOf {text : List Char} {offset : Nat}
    (h : Text.IsBoundary text (min offset (Text.width text))) :
    ∃ front row after, text = front ++ row ++ after ∧
      Text.width front = (ofText text).lineStart ((ofText text).lineOf offset) ∧
      Text.width (front ++ row) = min offset (Text.width text) ∧
      (ofText text).columnOf text offset = row.length + 1 := by
  have hstart := isBoundary_lineStart text ((ofText text).lineOf offset)
  have hle := lineStart_lineOf_le text offset
  obtain ⟨row, hrow⟩ := Text.slice?_isSome hstart h hle
  obtain ⟨front, after, htext, hfront, hwidth⟩ := Text.slice?_eq_some_iff.mp hrow
  refine ⟨front, row, after, htext, hfront, hwidth, ?_⟩
  rw [← lineOf_min] at hrow
  rw [columnOf, show (ofText text).width = Text.width text from rfl, hrow]

/-- Between characters the line feeds before a place are characters in front of it. -/
theorem feedsBefore_width (before rest : List Char) :
    Text.feedsBefore (before ++ rest) (Text.width before) = before.count '\n' := by
  have hline := lineOf_eq_feedsBefore (before ++ rest) (Text.width before)
  have hle : Text.width before ≤ Text.width (before ++ rest) := by
    rw [Text.width_append]
    omega
  rw [lineOf_width, Nat.min_eq_left hle] at hline
  omega

/-- The line and the column of a place. -/
def position (text : List Char) (offset : Nat) : Nat × Nat :=
  ((ofText text).lineOf offset, (ofText text).columnOf text offset)

/-- Of two places between characters the one in front has the smaller line, or the same line and
the smaller column. -/
theorem position_lt {text : List Char} {a b : Nat} (ha : Text.IsBoundary text a)
    (hb : Text.IsBoundary text b) (hlt : a < b) :
    toLex (position text a) < toLex (position text b) := by
  have hmina : min a (Text.width text) = a := Nat.min_eq_left ha.le_width
  have hminb : min b (Text.width text) = b := Nat.min_eq_left hb.le_width
  rw [Prod.Lex.toLex_lt_toLex]
  rcases Nat.lt_or_eq_of_le ((ofText text).lineOf_mono (Nat.le_of_lt hlt)) with hline | hline
  · exact .inl hline
  · refine .inr ⟨hline, ?_⟩
    obtain ⟨front, row, after, htext, hfront, hwidth, hcolumn⟩ :=
      @exists_columnOf text a (by rwa [hmina])
    obtain ⟨front', row', after', htext', hfront', hwidth', hcolumn'⟩ :=
      @exists_columnOf text b (by rwa [hminb])
    -- Both rows start where the line starts, so the shorter one is cut out of the longer one.
    rw [List.append_assoc] at htext htext'
    obtain ⟨rfl, hrest⟩ := Text.append_inj_of_width (htext.symm.trans htext')
      (by rw [hfront, hfront', hline])
    rw [Text.width_append] at hwidth hwidth'
    obtain ⟨more, rfl, _⟩ := Text.append_of_width_le hrest (by omega)
    have hmore : more ≠ [] := by
      rintro rfl
      rw [List.append_nil] at hwidth'
      omega
    have hlength := List.length_pos_iff.mpr hmore
    show (ofText text).columnOf text a < (ofText text).columnOf text b
    rw [hcolumn, hcolumn', List.length_append]
    omega

/-- Line and column identify a place: the search by halving among the starts of lines gives one
more than the number of line feeds before an offset, the column counts characters from the start
of the line, the start of the line and that of the next enclose the offset, and positions are
ordered as the places between characters are. -/
theorem position_spec (text : List Char) (offset : Nat) :
    (search (ofText text).starts (min offset (Text.width text))).line =
        (ofText text).lineOf offset ∧
      (ofText text).lineOf offset =
        1 + Text.feedsBefore text (min offset (Text.width text)) ∧
      (Text.IsBoundary text (min offset (Text.width text)) →
        ∃ front row after, text = front ++ row ++ after ∧
          Text.width front = (ofText text).lineStart ((ofText text).lineOf offset) ∧
          Text.width (front ++ row) = min offset (Text.width text) ∧
          (ofText text).columnOf text offset = 1 + row.length) ∧
      (ofText text).lineStart ((ofText text).lineOf offset) ≤ min offset (Text.width text) ∧
      ((ofText text).lineOf offset ≠ (ofText text).lineCount →
        min offset (Text.width text) <
          (ofText text).lineStart ((ofText text).lineOf offset + 1)) ∧
      ∀ other, Text.IsBoundary text offset → Text.IsBoundary text other →
        (toLex (position text offset) < toLex (position text other) ↔ offset < other) ∧
          (position text offset = position text other ↔ offset = other) := by
  refine ⟨?_, ?_, fun h => ?_, lineStart_lineOf_le text offset, lt_lineStart_succ,
    fun other h h' => ⟨⟨fun hlt => ?_, position_lt h h'⟩, ⟨fun heq => ?_, fun heq => by rw [heq]⟩⟩⟩
  · exact search_line (pairwise_starts text) _
  · rw [lineOf_eq_feedsBefore, Nat.add_comm]
  · obtain ⟨front, row, after, htext, hfront, hwidth, hcolumn⟩ := exists_columnOf h
    exact ⟨front, row, after, htext, hfront, hwidth, by rw [hcolumn, Nat.add_comm]⟩
  · by_contra hle
    rcases Nat.lt_or_eq_of_le (Nat.not_lt.mp hle) with hback | rfl
    · exact lt_asymm hlt (position_lt h' h hback)
    · exact lt_irrefl _ hlt
  · rcases Nat.lt_trichotomy offset other with hlt | rfl | hlt
    · exact absurd (congrArg toLex heq) (ne_of_lt (position_lt h h' hlt))
    · rfl
    · exact absurd (congrArg toLex heq.symm) (ne_of_lt (position_lt h' h hlt))

/-- Two places of a text with a wide character, the first of them not on the last line. -/
theorem position_spec_wide :
    Text.IsBoundary "aé\nb".toList (min 3 (Text.width "aé\nb".toList)) ∧
      Text.IsBoundary "aé\nb".toList 4 ∧
      (ofText "aé\nb".toList).lineOf 3 ≠ (ofText "aé\nb".toList).lineCount ∧
      min 3 (Text.width "aé\nb".toList) <
        (ofText "aé\nb".toList).lineStart ((ofText "aé\nb".toList).lineOf 3 + 1) ∧
      toLex (position "aé\nb".toList 3) < toLex (position "aé\nb".toList 4) := by
  have hthree : Text.IsBoundary "aé\nb".toList 3 := ⟨['a', 'é'], ['\n', 'b'], by decide, by decide⟩
  have hfour : Text.IsBoundary "aé\nb".toList 4 := ⟨['a', 'é', '\n'], ['b'], by decide, by decide⟩
  have hlast : (ofText "aé\nb".toList).lineOf 3 ≠ (ofText "aé\nb".toList).lineCount := by decide
  have hspec := position_spec "aé\nb".toList 3
  exact ⟨hthree, hfour, hlast, hspec.2.2.2.2.1 hlast,
    (hspec.2.2.2.2.2 4 hthree hfour).1.mpr (by decide)⟩

end LineIndex
end Outline
