import Outline.Proofs.Pattern.Shape

/-!
# Matches found in a text

A match that a search finds in a text, and every part of it, are stretches of
that text, and the shape of the pattern tells how the parts lie.
-/

namespace Outline

/-- A stretch stands in a text where it says. -/
def Capture.At (capture : Capture) (text : List Char) : Prop :=
  ∃ before after, text = before ++ capture.text ++ after ∧ Text.width before = capture.start

namespace Capture

theorem At.isBoundary_start {capture : Capture} {text : List Char} (h : capture.At text) :
    Text.IsBoundary text capture.start := by
  obtain ⟨before, after, rfl, hw⟩ := h
  exact ⟨before, capture.text ++ after, by rw [List.append_assoc], hw⟩

theorem At.isBoundary_stop {capture : Capture} {text : List Char} (h : capture.At text) :
    Text.IsBoundary text capture.stop := by
  obtain ⟨before, after, rfl, hw⟩ := h
  exact ⟨before ++ capture.text, after, rfl, by rw [Text.width_append, hw]; rfl⟩

end Capture

/-- The match that a way from one place to another makes, with offsets counted
from `base`. -/
def Match.ofMarks (base : Nat) (c d : Cursor) (marks : List Mark) : Match :=
  ⟨c.capture base d.offset, marks.map fun mark => (mark.label, mark.start.capture base mark.stop)⟩

theorem Match.part?_ofMarks (base : Nat) (c d : Cursor) (marks : List Mark) (label : Part) :
    (Match.ofMarks base c d marks).part? label =
      (latest label marks).map fun mark => mark.start.capture base mark.stop := by
  rw [Match.part?, ofMarks]
  induction marks with
  | nil => rfl
  | cons mark marks ih =>
    by_cases h : mark.label = label
    · subst h
      simp [latest_cons_self]
    · have hb : (label == mark.label) = false := beq_false_of_ne (Ne.symm h)
      rw [latest_cons_of_ne h, ← ih, List.map_cons, List.lookup_cons, hb]

theorem Match.stop_ofMarks {c d : Cursor} {marks : List Mark} {read : List Char}
    (hread : c.Reads read d) (base : Nat) :
    (Match.ofMarks base c d marks).stop = base + d.offset := by
  rw [Match.stop, Match.ofMarks, hread.capture_eq, Capture.stop, hread.2, Nat.add_assoc]

namespace Pattern

/-- A match that starts at a place of a text. -/
theorem exists_of_matchAt {p : Pattern} {cursor : Cursor} {found : Match}
    (h : p.matchAt cursor = some found) :
    ∃ d ms, Matches p cursor.asOrigin d ms ∧
      found = .ofMarks cursor.offset cursor.asOrigin d ms := by
  rw [matchAt, Option.map_eq_some_iff] at h
  obtain ⟨stop, hs, rfl⟩ := h
  obtain ⟨r, hr, ms, hm, _, hms⟩ := extends_of_mem_ends (List.mem_of_head? hs)
  rw [List.mem_singleton.mp hr] at hm hms
  refine ⟨stop.cursor, ms, hm, ?_⟩
  rw [hms]
  simp [Match.ofMarks, Reach.start]

/-- A match found in a text stands between what comes before it and the rest. -/
def FoundIn (p : Pattern) (text : List Char) (found : Match) : Prop :=
  ∃ before rest d ms, text = before ++ rest ∧ Matches p ⟨before.getLast?, 0, rest⟩ d ms ∧
    found = .ofMarks (Text.width before) ⟨before.getLast?, 0, rest⟩ d ms

theorem foundIn_of_matchAt {p : Pattern} {before rest : List Char} {found : Match}
    (h : p.matchAt ⟨before.getLast?, Text.width before, rest⟩ = some found) :
    p.FoundIn (before ++ rest) found := by
  obtain ⟨d, ms, hm, rfl⟩ := exists_of_matchAt h
  exact ⟨before, rest, d, ms, rfl, hm, rfl⟩

theorem foundIn_of_mem_findAllFrom {p : Pattern} {resume : Nat} (before : List Char)
    {rest : List Char} {found : Match}
    (h : found ∈ p.findAllFrom resume before.getLast? (Text.width before) rest) :
    p.FoundIn (before ++ rest) found := by
  induction rest generalizing resume before with
  | nil =>
    rw [findAllFrom] at h
    split at h
    · exact foundIn_of_matchAt (Option.mem_toList.mp h)
    · simp at h
  | cons c rest ih =>
    rw [findAllFrom] at h
    rcases List.mem_append.mp h with h | h
    · split at h
      · exact foundIn_of_matchAt (Option.mem_toList.mp h)
      · simp at h
    · have hw : Text.width (before ++ [c]) = Text.width before + c.utf8Size := by
        rw [Text.width_append, Text.width_cons, Text.width_nil, Nat.add_zero]
      have hl : (before ++ [c]).getLast? = some c := List.getLast?_concat
      rw [← hw, ← hl] at h
      rw [show before ++ c :: rest = before ++ [c] ++ rest by rw [List.append_assoc]; rfl]
      exact ih (before ++ [c]) h

theorem foundIn_of_mem_findAll {p : Pattern} {text : List Char} {found : Match}
    (h : found ∈ p.findAll text) : p.FoundIn text found :=
  foundIn_of_mem_findAllFrom [] h

/-! ## The stretches of a found match -/

section

variable {p : Pattern} {text : List Char} {found : Match}

theorem FoundIn.whole_at (h : p.FoundIn text found) : found.whole.At text := by
  obtain ⟨before, rest, d, ms, rfl, hm, rfl⟩ := h
  obtain ⟨read, hr⟩ := hm.reads
  refine ⟨before, d.rest, ?_, rfl⟩
  rw [Match.ofMarks, hr.capture_eq, List.append_assoc]
  exact congrArg (before ++ ·) hr.1

/-- A part of a match is a stretch of the text inside of the match. -/
theorem FoundIn.part_at (h : p.FoundIn text found) {label : Part} {capture : Capture}
    (hc : found.part? label = some capture) :
    capture.At text ∧ found.start ≤ capture.start ∧ capture.stop ≤ found.stop := by
  obtain ⟨before, rest, d, ms, rfl, hm, rfl⟩ := h
  rw [Match.part?_ofMarks, Option.map_eq_some_iff] at hc
  obtain ⟨mark, hmark, rfl⟩ := hc
  obtain ⟨lead, part, trail, stop, hl, hp, ho, ht⟩ := hm.within mark (mem_of_latest hmark).1
  have hl0 : mark.start.offset = Text.width lead := by simpa using hl.2
  have hall := (hl.trans hp).trans ht
  rw [← ho, hp.capture_eq]
  refine ⟨⟨before ++ lead, trail ++ d.rest, ?_, ?_⟩, ?_, ?_⟩
  · have hrest : rest = lead ++ part ++ trail ++ d.rest := hall.1
    simp only [hrest, List.append_assoc]
  · rw [Text.width_append, hl0]
  · exact Nat.le_add_right _ _
  · have hd : d.offset = Text.width (lead ++ part ++ trail) := by simpa using hall.2
    rw [Match.stop, Match.ofMarks, hall.capture_eq]
    simp only [Capture.stop, Text.width_append]
    omega

theorem FoundIn.start_le_of_startsBefore (h : p.FoundIn text found) {x y : Part} {cx cy : Capture}
    (hp : p.startsBefore x y = true) (hx : found.part? x = some cx) (hy : found.part? y = some cy) :
    cx.start ≤ cy.start := by
  obtain ⟨before, rest, d, ms, rfl, hm, rfl⟩ := h
  rw [Match.part?_ofMarks, Option.map_eq_some_iff] at hx hy
  obtain ⟨mx, hmx, rfl⟩ := hx
  obtain ⟨my, hmy, rfl⟩ := hy
  obtain ⟨my', hmy', hle⟩ := hm.startsBefore hp hmx
  rw [hmy, Option.some.injEq] at hmy'
  subst hmy'
  exact Nat.add_le_add_left hle _

/-- A part that avoids a character is not empty and starts with another one. -/
theorem FoundIn.char_of_partAvoids (h : p.FoundIn text found) {label : Part} (bad : Char)
    {capture : Capture} (hp : p.partAvoids label bad = true)
    (hc : found.part? label = some capture) :
    capture.start < capture.stop ∧ ∃ a, Text.charAt? text capture.start = some a ∧ a ≠ bad := by
  obtain ⟨before, rest, d, ms, rfl, hm, rfl⟩ := h
  rw [Match.part?_ofMarks, Option.map_eq_some_iff] at hc
  obtain ⟨mark, hmark, rfl⟩ := hc
  obtain ⟨hmem, hlabel⟩ := mem_of_latest hmark
  obtain ⟨a, after, ha, hne, hlt⟩ := hm.partAvoids hp mark hmem hlabel
  obtain ⟨lead, part, _, stop, hl, hread, ho, _⟩ := hm.within mark hmem
  have hl0 : mark.start.offset = Text.width lead := by simpa using hl.2
  have hpart : mark.stop = mark.start.offset + Text.width part := by rw [← ho, hread.2]
  rw [hpart] at hlt
  constructor
  · rw [← ho, hread.capture_eq, Capture.stop]
    show Text.width before + mark.start.offset <
      Text.width before + mark.start.offset + Text.width part
    omega
  · refine ⟨a, Text.charAt?_eq_some_iff.mpr ⟨before ++ lead, after, ?_, ?_⟩, hne⟩
    · rw [List.append_assoc, ← ha]
      exact congrArg (before ++ ·) hl.1
    · rw [Text.width_append, ← hl0]
      rfl

/-- What stands in a part is read by a match of its body. -/
theorem FoundIn.exists_body (h : p.FoundIn text found) {label : Part} {capture : Capture}
    (hc : found.part? label = some capture) :
    ∃ q ∈ p.bodies label, ∃ c d ns, Matches q c d ns ∧ c.Reads capture.text d := by
  obtain ⟨before, rest, d, ms, rfl, hm, rfl⟩ := h
  rw [Match.part?_ofMarks, Option.map_eq_some_iff] at hc
  obtain ⟨mark, hmark, rfl⟩ := hc
  obtain ⟨hmem, rfl⟩ := mem_of_latest hmark
  obtain ⟨q, hq, stop, ns, hbody, hstop⟩ := hm.exists_body mark hmem
  obtain ⟨read, hr⟩ := hbody.reads
  refine ⟨q, hq, mark.start, stop, ns, hbody, ?_⟩
  rw [← hstop, hr.capture_eq]
  exact hr

/-- Whether all parts with a label end with a character other than a given one. -/
def partAvoidsLast (p : Pattern) (label : Part) (bad : Char) : Bool :=
  (p.bodies label).all fun q => q.consumes && q.avoidsLast bad

theorem FoundIn.getLast_of_partAvoidsLast (h : p.FoundIn text found) {label : Part} (bad : Char)
    {capture : Capture} (hp : p.partAvoidsLast label bad = true)
    (hc : found.part? label = some capture) :
    ∃ front last, capture.text = front ++ [last] ∧ last ≠ bad := by
  obtain ⟨q, hq, c, d, ns, hm, hr⟩ := h.exists_body hc
  have hq := List.all_eq_true.mp hp q hq
  rw [Bool.and_eq_true] at hq
  obtain ⟨read, hread, hlast⟩ := hm.getLast?_ne hq.2
  have hsame : capture.text = read := List.append_cancel_right (hr.1.symm.trans hread.1)
  rw [hsame]
  rcases List.eq_nil_or_concat read with hnil | ⟨front, last, rfl⟩
  · exact absurd hnil (hm.ne_nil hq.1 hread)
  · exact ⟨front, last, List.concat_eq_append, by simpa using hlast⟩

/-- A match of a pattern that closes with a character ends there. -/
theorem FoundIn.charAt?_of_closesWith (h : p.FoundIn text found) (last : Char)
    (hp : p.closesWith last = true) (hsize : last.utf8Size = 1) :
    Text.charAt? text (found.stop - 1) = some last ∧ found.start < found.stop := by
  obtain ⟨before, rest, d, ms, rfl, hm, rfl⟩ := h
  obtain ⟨read, hr⟩ := hm.closesWith hp
  have hstop : (Match.ofMarks (Text.width before) ⟨before.getLast?, 0, rest⟩ d ms).stop =
      Text.width before + Text.width read + 1 := by
    rw [Match.stop, Match.ofMarks, hr.capture_eq, Capture.stop, Text.width_append, Text.width_cons,
      hsize]
    exact (Nat.add_assoc _ _ _).symm
  rw [hstop, Nat.add_sub_cancel]
  refine ⟨Text.charAt?_eq_some_iff.mpr ⟨before ++ read, d.rest, ?_, Text.width_append _ _⟩, ?_⟩
  · have hrest : rest = read ++ [last] ++ d.rest := hr.1
    rw [hrest]
    simp only [List.append_assoc, List.singleton_append]
  · show Text.width before < Text.width before + Text.width read + 1
    omega

theorem FoundIn.start_lt_stop (h : p.FoundIn text found) (hp : p.consumes = true) :
    found.start < found.stop := by
  obtain ⟨before, rest, d, ms, rfl, hm, rfl⟩ := h
  obtain ⟨read, hr⟩ := hm.reads
  have hlt : 0 < d.offset := hm.offset_lt hp
  have hread : d.offset = 0 + Text.width read := hr.2
  rw [Match.start, Match.stop, Match.ofMarks, hr.capture_eq, Capture.stop]
  show Text.width before + 0 < Text.width before + 0 + Text.width read
  omega

end

/-! ## The first match -/

theorem foundIn_of_findFrom {p : Pattern} (before : List Char) {rest : List Char} {found : Match}
    (h : p.findFrom before.getLast? (Text.width before) rest = some found) :
    p.FoundIn (before ++ rest) found := by
  induction rest generalizing before with
  | nil => exact foundIn_of_matchAt h
  | cons c rest ih =>
    rw [findFrom] at h
    split at h
    · next found' hmatch =>
      cases h
      exact foundIn_of_matchAt hmatch
    · have hw : Text.width (before ++ [c]) = Text.width before + c.utf8Size := by
        rw [Text.width_append, Text.width_cons, Text.width_nil, Nat.add_zero]
      have hl : (before ++ [c]).getLast? = some c := List.getLast?_concat
      rw [← hw, ← hl] at h
      rw [show before ++ c :: rest = before ++ [c] ++ rest by rw [List.append_assoc]; rfl]
      exact ih (before ++ [c]) h

/-- The name that a search finds in a text can be cut out of it. -/
theorem isBoundary_of_find?_part {p : Pattern} {text : List Char} {label : Part} {capture : Capture}
    (h : (p.find? text).bind (·.part? label) = some capture) :
    Text.IsBoundary text capture.start ∧ Text.IsBoundary text capture.stop := by
  obtain ⟨found, hf, hc⟩ := Option.bind_eq_some_iff.mp h
  have hat := ((foundIn_of_findFrom [] hf).part_at hc).1
  exact ⟨hat.isBoundary_start, hat.isBoundary_stop⟩

end Pattern
end Outline

/-!
## The order of matches

A search goes through a text from left to right, so the matches it returns start one
after the other.
-/

namespace Outline
namespace Pattern

variable {p : Pattern} {found : Match}

theorem start_of_matchAt {cursor : Cursor} (h : p.matchAt cursor = some found) :
    found.start = cursor.offset := by
  rw [matchAt, Option.map_eq_some_iff] at h
  obtain ⟨reach, -, rfl⟩ := h
  rfl

theorem start_of_mem_here {b : Prop} [Decidable b] {cursor : Cursor}
    (h : found ∈ (if b then p.matchAt cursor else none).toList) : found.start = cursor.offset := by
  rw [Option.mem_toList] at h
  split at h
  · exact start_of_matchAt h
  · exact nomatch h

theorem le_start_of_mem_findAllFrom {resume offset : Nat} {previous : Option Char}
    {rest : List Char} (h : found ∈ p.findAllFrom resume previous offset rest) :
    offset ≤ found.start := by
  induction rest generalizing resume previous offset with
  | nil =>
    rw [findAllFrom] at h
    exact Nat.le_of_eq (start_of_mem_here h).symm
  | cons c rest ih =>
    rw [findAllFrom] at h
    rcases List.mem_append.mp h with h | h
    · exact Nat.le_of_eq (start_of_mem_here h).symm
    · have hnext := ih h
      omega

theorem pairwise_findAllFrom (p : Pattern) (resume offset : Nat) (previous : Option Char)
    (rest : List Char) :
    (p.findAllFrom resume previous offset rest).Pairwise fun a b => a.start < b.start := by
  have hone : ∀ here : Option Match, here.toList.Pairwise fun a b => a.start < b.start := by
    intro here
    cases here <;> simp
  induction rest generalizing resume previous offset with
  | nil =>
    rw [findAllFrom]
    exact hone _
  | cons c rest ih =>
    rw [findAllFrom]
    refine List.pairwise_append.mpr ⟨hone _, ih _ _ _, fun a ha b hb => ?_⟩
    have hstart := start_of_mem_here ha
    have hnext := le_start_of_mem_findAllFrom hb
    have hpos := Char.utf8Size_pos c
    show a.start < b.start
    rw [hstart]
    show offset < b.start
    omega

theorem pairwise_findAll (p : Pattern) (text : List Char) :
    (p.findAll text).Pairwise fun a b => a.start < b.start :=
  p.pairwise_findAllFrom 0 0 none text

/-- The place from which a search goes on only moves ahead. -/
theorem resume_le (p : Pattern) (resume : Nat) (cursor : Cursor) :
    let here := if resume ≤ cursor.offset then p.matchAt cursor else none
    (∀ found ∈ here.toList, resume ≤ found.start) ∧
      resume ≤ (here.map Match.stop).getD resume := by
  have hstart : ∀ found ∈ (if resume ≤ cursor.offset then p.matchAt cursor else none).toList,
      resume ≤ found.start := by
    intro found h
    rw [start_of_mem_here h]
    rw [Option.mem_toList] at h
    split at h
    · assumption
    · exact nomatch h
  refine ⟨hstart, ?_⟩
  generalize (if resume ≤ cursor.offset then p.matchAt cursor else none) = here at hstart ⊢
  cases here with
  | none => exact Nat.le_refl resume
  | some found => exact Nat.le_trans (hstart found (by simp)) (Nat.le_add_right _ _)

theorem resume_le_start_of_mem_findAllFrom {resume offset : Nat} {previous : Option Char}
    {rest : List Char} (h : found ∈ p.findAllFrom resume previous offset rest) :
    resume ≤ found.start := by
  induction rest generalizing resume previous offset with
  | nil =>
    rw [findAllFrom] at h
    exact (p.resume_le resume ⟨previous, offset, []⟩).1 found h
  | cons c rest ih =>
    obtain ⟨hstart, hle⟩ := p.resume_le resume ⟨previous, offset, c :: rest⟩
    rw [findAllFrom] at h
    rcases List.mem_append.mp h with h | h
    · exact hstart found h
    · exact Nat.le_trans hle (ih h)

/-- No match starts inside of one before it. -/
theorem pairwise_stop_findAllFrom (p : Pattern) (resume offset : Nat) (previous : Option Char)
    (rest : List Char) :
    (p.findAllFrom resume previous offset rest).Pairwise fun a b => a.stop ≤ b.start := by
  have hone : ∀ here : Option Match, here.toList.Pairwise fun a b => a.stop ≤ b.start := by
    intro here
    cases here <;> simp
  induction rest generalizing resume previous offset with
  | nil =>
    rw [findAllFrom]
    exact hone _
  | cons c rest ih =>
    rw [findAllFrom]
    refine List.pairwise_append.mpr ⟨hone _, ih _ _ _, fun a ha b hb => ?_⟩
    have hnext := resume_le_start_of_mem_findAllFrom hb
    rwa [Option.mem_toList.mp ha] at hnext

theorem pairwise_stop_findAll (p : Pattern) (text : List Char) :
    (p.findAll text).Pairwise fun a b => a.stop ≤ b.start :=
  p.pairwise_stop_findAllFrom 0 0 none text

end Pattern
end Outline
