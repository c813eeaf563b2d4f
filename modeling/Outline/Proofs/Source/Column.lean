import Outline.Proofs.Source.Stretch
import Outline.Proofs.Text.Line

/-!
# Columns in the views of a source

A hidden character leaves one space for each of its bytes.  So a character that shows in a
view stands on the line where it stands in the text, but further right by the bytes that the
hidden characters in front of it have beyond one each.
-/

namespace Outline

namespace Text

/-- The character on a line and in a column of a text, both counted from one. -/
def charOn? (text : List Char) (line column : Nat) : Option Char :=
  ((splitAt '\n' text)[line - 1]?).bind fun row => row[column - 1]?

/-- A line without its carriage return is the start of the line. -/
theorem chopReturn_isPrefix (line : List Char) : chopReturn line <+: line := by
  rw [chopReturn]
  cases hdrop : dropTrail? ['\r'] line with
  | none => exact List.prefix_refl line
  | some rest => exact ⟨['\r'], (eq_append_of_dropTrail? hdrop).symm⟩

/-- What a reader sees of a line is how the piece between two line feeds starts. -/
theorem exists_splitAt_of_linesFrom {line text shown : List Char} {n : Nat}
    (hl : '\n' ∉ line) (h : (linesFrom line text)[n]? = some shown) :
    ∃ piece, (splitAt '\n' (line.reverse ++ text))[n]? = some piece ∧ shown <+: piece := by
  have hrev : '\n' ∉ line.reverse := by simpa using hl
  rw [splitAt_append_of_notMem hrev]
  induction text generalizing line n with
  | nil =>
    rw [linesFrom] at h
    split at h
    · cases h
    · cases n with
      | zero =>
        obtain rfl : line.reverse = shown := Option.some.inj h
        exact ⟨line.reverse, by simp [splitAt], List.prefix_refl _⟩
      | succ n => cases h
  | cons c text ih =>
    rw [linesFrom] at h
    split at h
    · next hc =>
      rw [splitAt, if_pos hc]
      cases n with
      | zero =>
        refine ⟨line.reverse, by simp, ?_⟩
        rw [← Option.some.inj h]
        exact chopReturn_isPrefix _
      | succ n =>
        obtain ⟨piece, hpiece, hshown⟩ := ih (by simp) h (by simp)
        obtain ⟨pieces, hpieces⟩ := splitAt_eq_cons '\n' text
        exact ⟨piece, by simpa [hpieces] using hpiece, hshown⟩
    · next hc =>
      have hcons : '\n' ∉ c :: line := by simp [hl, Ne.symm hc]
      obtain ⟨piece, hpiece, hshown⟩ := ih hcons h (by simpa [and_comm] using hcons)
      obtain ⟨pieces, hpieces⟩ := splitAt_eq_cons '\n' text
      refine ⟨piece, ?_, hshown⟩
      rw [splitAt, if_neg hc, hpieces]
      rw [hpieces] at hpiece
      simpa using hpiece

theorem exists_splitAt_of_lines {text shown : List Char} {n : Nat}
    (h : (lines text)[n]? = some shown) :
    ∃ piece, (splitAt '\n' text)[n]? = some piece ∧ shown <+: piece :=
  exists_splitAt_of_linesFrom List.not_mem_nil h

end Text

namespace Mask

/-! ## Tinted lines -/

/-- The lines of a tinted text, without their line feeds. -/
def tintedLines (word : Tinted) : List Tinted := word.splitOnP fun (_, c) => c == '\n'

/-- A view that keeps line feeds and adds none shows the lines one by one. -/
theorem splitAt_flatMap {show' : Shade × Char → List Char}
    (hfeed : ∀ shade, show' (shade, '\n') = ['\n'])
    (hother : ∀ shade c, c ≠ '\n' → '\n' ∉ show' (shade, c)) (word : Tinted) :
    Text.splitAt '\n' (word.flatMap show') = (tintedLines word).map (·.flatMap show') := by
  induction word with
  | nil => rfl
  | cons x word ih =>
    obtain ⟨shade, c⟩ := x
    rw [tintedLines, List.splitOnP_cons_eq_if_modifyHead, ← tintedLines, List.flatMap_cons]
    by_cases hc : c = '\n'
    · subst hc
      rw [hfeed, List.singleton_append, Text.splitAt, if_pos rfl, ih]
      rfl
    · rw [Text.splitAt_append_of_notMem (hother shade c hc), ih, if_neg (by simpa using hc)]
      cases tintedLines word <;> simp

theorem splitAt_view (hidden : Shade → Bool) (word : Tinted) :
    Text.splitAt '\n' (view hidden word) = (tintedLines word).map (view hidden) := by
  refine splitAt_flatMap (fun shade => ?_) (fun shade c hc => ?_) word
  · show (if hidden shade then blank '\n' else ['\n']) = ['\n']
    split <;> rfl
  · show '\n' ∉ if hidden shade then blank c else [c]
    split
    · rw [blank, if_neg hc]
      exact fun hm => absurd (List.eq_of_mem_replicate hm) (by decide)
    · simpa using Ne.symm hc

theorem splitAt_wordOf (word : Tinted) :
    Text.splitAt '\n' (wordOf word) = (tintedLines word).map wordOf := by
  have hword : ∀ word, wordOf word = word.flatMap fun x => [x.2] :=
    fun word => List.map_eq_flatMap
  rw [hword word, splitAt_flatMap (fun _ => rfl) (fun _ c hc => by simpa using Ne.symm hc)]
  exact List.map_congr_left fun line _ => (hword line).symm

theorem feed_notMem_of_mem_tintedLines {word line : Tinted} (h : line ∈ tintedLines word) :
    '\n' ∉ wordOf line := by
  induction word generalizing line with
  | nil => simp [List.mem_singleton.mp h]
  | cons x word ih =>
    obtain ⟨shade, c⟩ := x
    rw [tintedLines, List.splitOnP_cons_eq_if_modifyHead, ← tintedLines] at h
    by_cases hc : c = '\n'
    · rw [if_pos (by simpa using hc)] at h
      rcases List.mem_cons.mp h with rfl | h
      · exact List.not_mem_nil
      · exact ih h
    · rw [if_neg (by simpa using hc)] at h
      cases hlines : tintedLines word with
      | nil =>
        rw [hlines] at h
        exact nomatch h
      | cons first rest =>
        rw [hlines, List.modifyHead_cons] at h
        rcases List.mem_cons.mp h with rfl | h
        · have hfirst := ih (hlines ▸ List.mem_cons_self)
          simpa [Ne.symm hc] using hfirst
        · exact ih (hlines ▸ List.mem_cons_of_mem first h)

/-! ## Columns -/

/-- The bytes beyond one each of the hidden characters of a tinted word. -/
def excess : Tinted → Nat
  | [] => 0
  | (shade, c) :: word => (if shade = .plain then 0 else c.utf8Size - 1) + excess word

/-- The bytes beyond one each of the hidden characters in front of a column of a line. -/
def excessBefore (rules : MaskRules) (text : List Char) (line column : Nat) : Nat :=
  excess ((((tintedLines (tinted rules text))[line - 1]?).getD []).take (column - 1))

@[simp] theorem excess_cons (shade : Shade) (c : Char) (word : Tinted) :
    excess ((shade, c) :: word) =
      (if shade = .plain then 0 else c.utf8Size - 1) + excess word := rfl

theorem length_view {word : Tinted} (h : '\n' ∉ wordOf word) :
    (view (· != .plain) word).length = word.length + excess word := by
  induction word with
  | nil => rfl
  | cons x word ih =>
    obtain ⟨shade, c⟩ := x
    rw [wordOf_cons] at h
    have hrest := ih (List.not_mem_of_not_mem_cons h)
    have hpos := Char.utf8Size_pos c
    rw [view_cons, List.length_append, hrest, excess_cons, List.length_cons]
    by_cases hs : shade = .plain
    · simp [hs]
      omega
    · rw [if_pos (by simpa using hs), blank, if_neg (List.ne_of_not_mem_cons h).symm,
        List.length_replicate, if_neg hs]
      omega

/-- A character of a view that is no space shows what is in the word. -/
theorem exists_of_getElem?_view {word : Tinted} {n : Nat} {c : Char} (hs : c ≠ ' ')
    (hf : c ≠ '\n') (h : (view (· != .plain) word)[n]? = some c) :
    ∃ front shade rear, word = front ++ (shade, c) :: rear ∧
      n = (view (· != .plain) front).length := by
  induction word generalizing n with
  | nil => exact nomatch h
  | cons x word ih =>
    obtain ⟨shade, d⟩ := x
    rw [view_cons] at h
    by_cases hlt : n < (if (shade != .plain) = true then blank d else [d]).length
    · rw [List.getElem?_append_left hlt] at h
      split at h
      · rcases mem_blank (List.mem_of_getElem? h) with heq | heq
        · exact absurd heq hs
        · exact absurd heq hf
      · next hshade =>
        rw [if_neg hshade, List.length_singleton] at hlt
        obtain rfl : n = 0 := by omega
        cases h
        exact ⟨[], shade, word, rfl, rfl⟩
    · rw [List.getElem?_append_right (Nat.le_of_not_lt hlt)] at h
      obtain ⟨front, shade', rear, rfl, hn⟩ := ih h
      refine ⟨(shade, d) :: front, shade', rear, rfl, ?_⟩
      rw [view_cons, List.length_append, ← hn]
      omega

/-- A character that shows in the masked view stands in the text on the same line, and further
left by the excess of the hidden characters in front of it. -/
theorem exists_charOn? {rules : MaskRules} {text : List Char} {line column : Nat} {c : Char}
    (hs : c ≠ ' ') (hf : c ≠ '\n')
    (h : ((Text.lines (masked rules text))[line]?).bind (·[column]?) = some c) :
    ∃ column', Text.charOn? text (line + 1) (column' + 1) = some c ∧
      column = column' + excessBefore rules text (line + 1) (column' + 1) := by
  obtain ⟨shown, hshown, hchar⟩ := Option.bind_eq_some_iff.mp h
  obtain ⟨piece, hpiece, hprefix⟩ := Text.exists_splitAt_of_lines hshown
  rw [masked, ← view_tinted, splitAt_view, List.getElem?_map, Option.map_eq_some_iff] at hpiece
  obtain ⟨tline, htline, rfl⟩ := hpiece
  have hview : (view (· != .plain) tline)[column]? = some c := by
    obtain ⟨rear, hrear⟩ := hprefix
    rw [← hrear, List.getElem?_append_left (List.getElem?_eq_some_iff.mp hchar).1]
    exact hchar
  obtain ⟨front, shade, rear, rfl, hcolumn⟩ := exists_of_getElem?_view hs hf hview
  have hfeed : '\n' ∉ wordOf front := by
    have hline := feed_notMem_of_mem_tintedLines (List.mem_of_getElem? htline)
    rw [wordOf_append] at hline
    exact fun hm => hline (List.mem_append_left _ hm)
  refine ⟨front.length, ?_, ?_⟩
  · rw [Text.charOn?, ← wordOf_tinted rules text, splitAt_wordOf, Nat.add_sub_cancel,
      Nat.add_sub_cancel, List.getElem?_map, htline]
    simp [wordOf]
  · rw [hcolumn, length_view hfeed, excessBefore, Nat.add_sub_cancel, Nat.add_sub_cancel, htline]
    simp

end Mask
end Outline
