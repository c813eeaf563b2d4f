import Outline.Proofs.Text.Line

/-!
# A text further down

Line feeds in front of a text move it down by as many bytes and as many lines.  What
stands at a place, on its line and in its column is what stood there before.
-/

namespace Outline
namespace Text

/-! ## Behind a front

What is asked of a text from a place on does not depend on what stands in front of it. -/

section

variable (front text : List Char)

theorem dropWidth?_behind (offset : Nat) :
    dropWidth? (offset + width front) (front ++ text) = dropWidth? offset text := by
  induction front with
  | nil => rfl
  | cons c front ih =>
    have hpos := Char.utf8Size_pos c
    obtain ⟨n, hn⟩ : ∃ n, offset + width (c :: front) = n + 1 :=
      ⟨offset + width (c :: front) - 1, by rw [width_cons]; omega⟩
    have hrest : n + 1 - c.utf8Size = offset + width front := by rw [← hn, width_cons]; omega
    have hsize : c.utf8Size ≤ n + 1 := by rw [← hn, width_cons]; omega
    rw [hn, List.cons_append, dropWidth?, if_pos hsize, hrest, ih]

theorem takeWidth?_behind (offset : Nat) :
    takeWidth? (offset + width front) (front ++ text) =
      (takeWidth? offset text).map (front ++ ·) := by
  induction front with
  | nil =>
    have hnil : (fun part : List Char => [] ++ part) = id := funext List.nil_append
    rw [hnil, Option.map_id]
    rfl
  | cons c front ih =>
    have hpos := Char.utf8Size_pos c
    obtain ⟨n, hn⟩ : ∃ n, offset + width (c :: front) = n + 1 :=
      ⟨offset + width (c :: front) - 1, by rw [width_cons]; omega⟩
    have hrest : n + 1 - c.utf8Size = offset + width front := by rw [← hn, width_cons]; omega
    have hsize : c.utf8Size ≤ n + 1 := by rw [← hn, width_cons]; omega
    rw [hn, List.cons_append, takeWidth?, if_pos hsize, hrest, ih, Option.map_map]
    rfl

theorem slice?_behind (start stop : Nat) :
    slice? (front ++ text) (start + width front) (stop + width front) = slice? text start stop := by
  rw [slice?, slice?, dropWidth?_behind, Nat.add_sub_add_right]
  simp only [Nat.add_le_add_iff_right]

theorem charAt?_behind (offset : Nat) :
    charAt? (front ++ text) (offset + width front) = charAt? text offset := by
  rw [charAt?, charAt?, dropWidth?_behind]

theorem suffixAt_behind (offset : Nat) :
    suffixAt (front ++ text) (offset + width front) = suffixAt text offset := by
  rw [suffixAt, suffixAt, dropWidth?_behind]

theorem before_behind (offset : Nat) :
    before (front ++ text) (offset + width front) = front ++ before text offset := by
  rw [before, before, takeWidth?_behind]
  cases takeWidth? offset text <;> rfl

theorem skipBlanks_behind (start : Nat) :
    skipBlanks (front ++ text) (start + width front) = skipBlanks text start + width front := by
  rw [skipBlanks, skipBlanks, dropWidth?_behind, width_append, Nat.add_comm (width front)]
  cases dropWidth? start text with
  | none => exact Nat.add_min_add_right _ _ _
  | some rest => exact Nat.add_right_comm _ _ _

end

/-- A text ends with another one, which has so many bytes in front of it. -/
def Behind (n : Nat) (rest text : List Char) : Prop := ∃ front, text = front ++ rest ∧ width front = n

namespace Behind

variable {n : Nat} {rest text : List Char}

theorem refl (text : List Char) : Behind 0 text text := ⟨[], rfl, rfl⟩

theorem append (front rest : List Char) : Behind (width front) rest (front ++ rest) :=
  ⟨front, rfl, rfl⟩

theorem width_eq (h : Behind n rest text) : width text = width rest + n := by
  obtain ⟨front, rfl, rfl⟩ := h
  rw [width_append, Nat.add_comm]

theorem dropWidth?_eq (h : Behind n rest text) (offset : Nat) :
    dropWidth? (offset + n) text = dropWidth? offset rest := by
  obtain ⟨front, rfl, rfl⟩ := h
  exact dropWidth?_behind front rest offset

theorem slice?_eq (h : Behind n rest text) (start stop : Nat) :
    slice? text (start + n) (stop + n) = slice? rest start stop := by
  obtain ⟨front, rfl, rfl⟩ := h
  exact slice?_behind front rest start stop

theorem charAt?_eq (h : Behind n rest text) (offset : Nat) :
    charAt? text (offset + n) = charAt? rest offset := by
  obtain ⟨front, rfl, rfl⟩ := h
  exact charAt?_behind front rest offset

theorem skipBlanks_eq (h : Behind n rest text) (start : Nat) :
    skipBlanks text (start + n) = skipBlanks rest start + n := by
  obtain ⟨front, rfl, rfl⟩ := h
  exact skipBlanks_behind front rest start

end Behind

/-! ## Behind line feeds -/

/-- A text with line feeds in front of it. -/
def lower (feeds : Nat) (text : List Char) : List Char := List.replicate feeds '\n' ++ text

theorem width_feeds (feeds : Nat) : width (List.replicate feeds '\n') = feeds := by
  induction feeds with
  | zero => rfl
  | succ feeds ih => exact (congrArg (1 + ·) ih).trans (Nat.add_comm 1 feeds)

theorem behind_lower (feeds : Nat) (text : List Char) : Behind feeds text (lower feeds text) :=
  ⟨_, rfl, width_feeds feeds⟩

section

variable (feeds : Nat) (text : List Char)

theorem lower_succ : lower (feeds + 1) text = '\n' :: lower feeds text := rfl

theorem reverse_lower : (lower feeds text).reverse = text.reverse ++ List.replicate feeds '\n' := by
  rw [lower, List.reverse_append, List.reverse_replicate]

@[simp] theorem width_lower : width (lower feeds text) = width text + feeds := by
  rw [lower, width_append, width_feeds, Nat.add_comm]

/-! ### Places -/

@[simp] theorem takeWidth?_lower (offset : Nat) :
    takeWidth? (offset + feeds) (lower feeds text) =
      (takeWidth? offset text).map (lower feeds) := by
  have h := takeWidth?_behind (List.replicate feeds '\n') text offset
  rwa [width_feeds] at h

@[simp] theorem slice?_lower (start stop : Nat) :
    slice? (lower feeds text) (start + feeds) (stop + feeds) = slice? text start stop :=
  (behind_lower feeds text).slice?_eq start stop

@[simp] theorem charAt?_lower (offset : Nat) :
    charAt? (lower feeds text) (offset + feeds) = charAt? text offset :=
  (behind_lower feeds text).charAt?_eq offset

@[simp] theorem suffixAt_lower (offset : Nat) :
    suffixAt (lower feeds text) (offset + feeds) = suffixAt text offset := by
  have h := suffixAt_behind (List.replicate feeds '\n') text offset
  rwa [width_feeds] at h

@[simp] theorem before_lower (offset : Nat) :
    before (lower feeds text) (offset + feeds) = lower feeds (before text offset) := by
  have h := before_behind (List.replicate feeds '\n') text offset
  rwa [width_feeds] at h

@[simp] theorem skipBlanks_lower (start : Nat) :
    skipBlanks (lower feeds text) (start + feeds) = skipBlanks text start + feeds :=
  (behind_lower feeds text).skipBlanks_eq start

/-! ## Words and blanks -/

/-- A word without line feeds is not found in those behind a text. -/
theorem dropLead?_append_feeds {word : List Char} (h : '\n' ∉ word) :
    dropLead? word (text ++ List.replicate feeds '\n') =
      (dropLead? word text).map (· ++ List.replicate feeds '\n') := by
  induction word generalizing text with
  | nil => rfl
  | cons w word ih =>
    have hw : w ≠ '\n' := Ne.symm (List.ne_of_not_mem_cons h)
    cases text with
    | nil =>
      cases feeds with
      | zero => rfl
      | succ feeds => exact if_neg hw
    | cons c text =>
      rw [List.cons_append, dropLead?, dropLead?]
      split
      · exact ih text (List.not_mem_of_not_mem_cons h)
      · rfl

theorem dropTrail?_lower {word : List Char} (h : '\n' ∉ word) :
    dropTrail? word (lower feeds text) = (dropTrail? word text).map (lower feeds) := by
  have hword : '\n' ∉ word.reverse := by simpa using h
  rw [dropTrail?, dropTrail?, reverse_lower, dropLead?_append_feeds feeds _ hword, Option.map_map,
    Option.map_map]
  refine congrArg (Option.map · _) (funext fun rest => ?_)
  rw [Function.comp_apply, Function.comp_apply, List.reverse_append, List.reverse_replicate, lower]

theorem endsWith_lower {word : List Char} (h : '\n' ∉ word) :
    endsWith (lower feeds text) word = endsWith text word := by
  rw [endsWith, endsWith, dropTrail?_lower feeds text h, Option.isSome_map]

/-- Blanks are passed over down to the first character that is none, or to the end. -/
theorem dropWhile_append_feeds :
    (text ++ List.replicate feeds '\n').dropWhile isBlank =
      if (text.dropWhile isBlank).isEmpty then []
      else text.dropWhile isBlank ++ List.replicate feeds '\n' := by
  have hfeeds : (List.replicate feeds '\n').dropWhile isBlank = [] := by
    induction feeds with
    | zero => rfl
    | succ feeds ih => exact ih
  rw [List.dropWhile_append, hfeeds]

theorem trimEnd_lower :
    trimEnd (lower feeds text) =
      if (trimEnd text).isEmpty then [] else lower feeds (trimEnd text) := by
  rw [trimEnd, trimEnd, reverse_lower, dropWhile_append_feeds, List.isEmpty_reverse]
  split
  · rfl
  · rw [List.reverse_append, List.reverse_replicate, lower]

/-! ## Lines -/

theorem lines_lower : lines (lower feeds text) = List.replicate feeds [] ++ lines text := by
  induction feeds with
  | zero => rfl
  | succ feeds ih =>
    rw [lower_succ, List.replicate_succ, List.cons_append, ← ih]
    rfl

end

theorem startsAfterFeeds_add (text : List Char) (offset n : Nat) :
    startsAfterFeeds (offset + n) text = (startsAfterFeeds offset text).map (· + n) := by
  induction text generalizing offset with
  | nil => rfl
  | cons c text ih =>
    rw [startsAfterFeeds, startsAfterFeeds, Nat.add_right_comm offset n 1,
      Nat.add_right_comm offset n c.utf8Size]
    split
    · rw [ih, List.map_cons]
    · rw [ih]

end Text

namespace LineIndex

theorem ofText_feed (text : List Char) :
    ofText ('\n' :: text) =
      ⟨0 :: (ofText text).starts.map (· + 1), (ofText text).width + 1⟩ := by
  have hstarts : (ofText ('\n' :: text)).starts = 0 :: 1 :: Text.startsAfterFeeds (0 + 1) text := rfl
  rw [Text.startsAfterFeeds_add] at hstarts
  have hwidth : (ofText ('\n' :: text)).width = (ofText text).width + 1 := Nat.add_comm _ _
  rw [← hwidth]
  exact congrArg (LineIndex.mk · _) hstarts

theorem lineOf_feed (text : List Char) (offset : Nat) :
    (ofText ('\n' :: text)).lineOf (offset + 1) = (ofText text).lineOf offset + 1 := by
  rw [lineOf, lineOf, ofText_feed]
  dsimp only
  rw [Nat.add_min_add_right, List.countP_cons_of_pos (by simp), List.countP_map]
  refine congrArg (· + 1) (List.countP_congr fun start _ => ?_)
  simp

theorem lineStart_feed (text : List Char) {line : Nat} (h : 1 ≤ line) :
    (ofText ('\n' :: text)).lineStart (line + 1) = (ofText text).lineStart line + 1 := by
  obtain ⟨line, rfl⟩ := Nat.exists_eq_add_of_le' h
  rw [lineStart, lineStart, ofText_feed]
  dsimp only
  rw [Nat.add_sub_cancel, Nat.add_sub_cancel, List.getElem?_cons_succ, List.getElem?_map]
  cases (ofText text).starts[line]? <;> rfl

theorem columnOf_feed (text : List Char) (offset : Nat) :
    (ofText ('\n' :: text)).columnOf ('\n' :: text) (offset + 1) =
      (ofText text).columnOf text offset := by
  have hmin : min (offset + 1) (ofText ('\n' :: text)).width =
      min offset (ofText text).width + 1 := by
    rw [ofText_feed]
    exact Nat.add_min_add_right _ _ _
  rw [columnOf, columnOf, hmin, lineOf_feed, lineStart_feed _ (one_le_lineOf_ofText _ _)]
  rw [show '\n' :: text = Text.lower 1 text from rfl, Text.slice?_lower, Nat.add_sub_add_right]

@[simp] theorem lineOf_lower (feeds : Nat) (text : List Char) (offset : Nat) :
    (ofText (Text.lower feeds text)).lineOf (offset + feeds) = (ofText text).lineOf offset + feeds := by
  induction feeds with
  | zero => rfl
  | succ feeds ih => rw [Text.lower_succ, ← Nat.add_assoc, lineOf_feed, ih, Nat.add_assoc]

@[simp] theorem columnOf_lower (feeds : Nat) (text : List Char) (offset : Nat) :
    (ofText (Text.lower feeds text)).columnOf (Text.lower feeds text) (offset + feeds) =
      (ofText text).columnOf text offset := by
  induction feeds with
  | zero => rfl
  | succ feeds ih => rw [Text.lower_succ, ← Nat.add_assoc, columnOf_feed, ih]

end LineIndex
end Outline
