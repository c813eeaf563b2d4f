import Mathlib.Algebra.GroupWithZero.Nat
import Outline.Proofs.Declaration.Parameter

/-!
# Where a list is split

A list is split at each separator outside of groups and nowhere else.  Whether a place is
outside of groups is a matter of two counts of what stands in front of it: brackets of all
kinds, which may close more than was open, and angles, which never do.
-/

namespace Outline

/-! ## Counts of what is open -/

def opensGroup (c : Char) : Bool := c == '(' || c == '[' || c == '\x7b'

def closesGroup (c : Char) : Bool := c == ')' || c == ']' || c == '\x7d'

/-- How many angles are open behind a text, in front of which `count` were open.  A `>` closes
one where one is open and no `-` stands in front of it. -/
def anglesFrom (count : Nat) (previous : Option Char) : List Char → Nat
  | [] => count
  | c :: rest =>
    if c = '<' then anglesFrom (count + 1) (some c) rest
    else if c = '>' ∧ previous ≠ some '-' then anglesFrom (count - 1) (some c) rest
    else anglesFrom count (some c) rest

/-- Behind a text no group is open: it closes as many brackets as it opens, and no angle is left
open. -/
structure LeavesNone (text : List Char) : Prop where
  brackets : text.countP opensGroup = text.countP closesGroup
  angles : anglesFrom 0 none text = 0

namespace Nesting

theorem after_eq (nesting : Nesting) (c : Char) : nesting.after c =
    if opensGroup c then ⟨nesting.depth + 1, nesting.angles, some c⟩
    else if closesGroup c then ⟨nesting.depth - 1, nesting.angles, some c⟩
    else if c == '<' then ⟨nesting.depth, nesting.angles + 1, some c⟩
    else if nesting.isBracket c then ⟨nesting.depth, nesting.angles - 1, some c⟩
    else ⟨nesting.depth, nesting.angles, some c⟩ := rfl

theorem previous_after (nesting : Nesting) (c : Char) : (nesting.after c).previous = some c := by
  rw [after_eq]
  split_ifs <;> rfl

theorem angles_after (nesting : Nesting) (c : Char) (rest : List Char) :
    anglesFrom (nesting.after c).angles (some c) rest =
      anglesFrom nesting.angles nesting.previous (c :: rest) := by
  rw [anglesFrom]
  by_cases hopen : c = '<'
  · subst hopen
    rfl
  rw [if_neg hopen]
  by_cases hclose : c = '>'
  · subst hclose
    have hafter : nesting.after '>' = if nesting.isBracket '>' then
        ⟨nesting.depth, nesting.angles - 1, some '>'⟩
        else ⟨nesting.depth, nesting.angles, some '>'⟩ := rfl
    have hbracket : nesting.isBracket '>' = true ↔
        nesting.previous ≠ some '-' ∧ 0 < nesting.angles := by simp [isBracket]
    rw [hafter]
    simp only [hbracket, true_and]
    by_cases hprevious : nesting.previous = some '-'
    · simp [hprevious]
    · by_cases hangles : 0 < nesting.angles
      · simp [hprevious, hangles]
      · simp [hprevious, Nat.eq_zero_of_not_pos hangles]
  · rw [if_neg (fun h => hclose h.1)]
    have hangles : (nesting.after c).angles = nesting.angles := by
      rw [after_eq]
      split_ifs with hopens hcloses hangle hbracket
      · rfl
      · rfl
      · exact absurd (beq_iff_eq.mp hangle) hopen
      · refine absurd hbracket ?_
        simp only [opensGroup, closesGroup, Bool.or_eq_true, not_or] at hopens hcloses
        simp [isBracket, hopens, hcloses, hclose, hopen]
      · rfl
    rw [hangles]

/-- The counts that a split keeps are those of the text that it has read. -/
theorem depth_foldl (nesting : Nesting) (text : List Char) :
    (text.foldl after nesting).depth =
      nesting.depth + text.countP opensGroup - text.countP closesGroup := by
  induction text generalizing nesting with
  | nil => simp
  | cons c text ih =>
    rw [List.foldl_cons, ih, after_eq]
    by_cases hopen : opensGroup c = true
    · have hclose : ¬ closesGroup c = true := by
        simp only [opensGroup, Bool.or_eq_true, beq_iff_eq] at hopen
        rcases hopen with (rfl | rfl) | rfl <;> decide
      rw [if_pos hopen, List.countP_cons_of_pos hopen, List.countP_cons_of_neg hclose]
      push_cast
      omega
    · rw [if_neg hopen, List.countP_cons_of_neg hopen]
      by_cases hclose : closesGroup c = true
      · rw [if_pos hclose, List.countP_cons_of_pos hclose]
        push_cast
        omega
      · rw [if_neg hclose, List.countP_cons_of_neg hclose]
        split_ifs <;> rfl

theorem angles_foldl (nesting : Nesting) (text : List Char) :
    (text.foldl after nesting).angles = anglesFrom nesting.angles nesting.previous text := by
  induction text generalizing nesting with
  | nil => rfl
  | cons c text ih => rw [List.foldl_cons, ih, previous_after, angles_after]

/-- Separators that are brackets, or open an angle, never split. -/
def cannotSplit : List Char := ['(', '[', '\x7b', ')', ']', '\x7d', '<']

/-- A separator splits behind a text that leaves no group open. -/
theorem splits_foldl_iff (separator : Char) (before : List Char) :
    (before.foldl after outside).splits separator separator = true ↔
      separator ∉ cannotSplit ∧ LeavesNone before := by
  have hdepth := depth_foldl outside before
  have hangles := angles_foldl outside before
  rw [show outside.depth = 0 from rfl] at hdepth
  rw [show outside.angles = 0 from rfl, show outside.previous = none from rfl] at hangles
  rw [splits, isTop]
  simp only [beq_self_eq_true, Bool.true_and, Bool.and_eq_true, beq_iff_eq, Bool.not_eq_true',
    hdepth]
  constructor
  · rintro ⟨⟨hd, ha⟩, hbracket⟩
    refine ⟨?_, by omega, by rw [← hangles, ha]⟩
    simpa [isBracket, ha, cannotSplit, and_assoc] using hbracket
  · rintro ⟨hnot, hbrackets, ha⟩
    rw [ha] at hangles
    refine ⟨⟨by omega, hangles⟩, ?_⟩
    simpa [isBracket, hangles, cannotSplit, and_assoc] using hnot

end Nesting

/-! ## Pieces and their places -/

/-- Where a piece starts: behind the pieces in front of it, with a separator behind each. -/
def pieceStart (separator : Char) (pieces : List (List Char)) (k : Nat) : Nat :=
  ((pieces.take k).map Text.width).sum + k * separator.utf8Size

/-- A separator between two pieces stands at an offset: behind a piece that is not the last one. -/
def IsCut (separator : Char) (pieces : List (List Char)) (offset : Nat) : Prop :=
  ∃ k piece, k + 1 < pieces.length ∧ pieces[k]? = some piece ∧
    offset = pieceStart separator pieces k + Text.width piece

section

variable {separator : Char} {piece : List Char} {pieces : List (List Char)}

theorem pieceStart_zero (pieces : List (List Char)) : pieceStart separator pieces 0 = 0 := by
  rw [pieceStart, List.take_zero, Nat.zero_mul]
  rfl

theorem pieceStart_succ (k : Nat) : pieceStart separator (piece :: pieces) (k + 1) =
    Text.width piece + separator.utf8Size + pieceStart separator pieces k := by
  rw [pieceStart, pieceStart, List.take_succ_cons, List.map_cons, List.sum_cons, Nat.succ_mul]
  omega

theorem isCut_singleton (offset : Nat) : ¬ IsCut separator [piece] offset := by
  rintro ⟨k, _, hk, -⟩
  simp at hk

theorem isCut_cons (hne : pieces ≠ []) (offset : Nat) : IsCut separator (piece :: pieces) offset ↔
    offset = Text.width piece ∨ ∃ later, IsCut separator pieces later ∧
      offset = Text.width piece + separator.utf8Size + later := by
  constructor
  · rintro ⟨k, next, hk, hnext, rfl⟩
    cases k with
    | zero =>
      obtain rfl := Option.some.inj hnext
      exact .inl (by rw [pieceStart_zero, Nat.zero_add])
    | succ k =>
      refine .inr ⟨_, ⟨k, next, Nat.lt_of_succ_lt_succ hk, hnext, rfl⟩, ?_⟩
      rw [pieceStart_succ, Nat.add_assoc]
  · rintro (rfl | ⟨_, ⟨k, next, hk, hnext, rfl⟩, rfl⟩)
    · refine ⟨0, piece, ?_, rfl, by rw [pieceStart_zero, Nat.zero_add]⟩
      exact Nat.succ_lt_succ (List.length_pos_iff.mpr hne)
    · exact ⟨k + 1, next, Nat.succ_lt_succ hk, hnext, by rw [pieceStart_succ]; omega⟩

/-- Pieces with the separator put back between them: each stands where it starts. -/
theorem slice?_join {k : Nat} (h : pieces[k]? = some piece) :
    Text.slice? (Text.join [separator] pieces) (pieceStart separator pieces k)
      (pieceStart separator pieces k + Text.width piece) = some piece := by
  rw [Text.slice?_eq_some_iff]
  suffices hparts : ∃ before after, Text.join [separator] pieces = before ++ piece ++ after ∧
      Text.width before = pieceStart separator pieces k by
    obtain ⟨before, after, hjoin, hwidth⟩ := hparts
    exact ⟨before, after, hjoin, hwidth, by rw [Text.width_append, hwidth]⟩
  induction pieces generalizing k with
  | nil => cases h
  | cons first pieces ih =>
    rw [Text.join]
    cases k with
    | zero =>
      obtain rfl := Option.some.inj h
      have hstart : Text.width [] = pieceStart separator (first :: pieces) 0 :=
        (pieceStart_zero _).symm
      rcases eq_or_ne pieces [] with rfl | hne
      · exact ⟨[], [], by simp, hstart⟩
      · refine ⟨[], [separator] ++ Text.join [separator] pieces, ?_, hstart⟩
        rw [List.intercalate_cons_of_ne_nil hne, ← Text.join, List.append_assoc, List.nil_append]
    | succ k =>
      obtain ⟨before, after, hjoin, hwidth⟩ := ih h
      have hne : pieces ≠ [] := by
        rintro rfl
        cases h
      refine ⟨first ++ [separator] ++ before, after, ?_, ?_⟩
      · rw [List.intercalate_cons_of_ne_nil hne, ← Text.join, hjoin]
        simp only [List.append_assoc]
      · rw [Text.width_append, Text.width_append, hwidth, pieceStart_succ]
        rfl

/-- A character of `c :: rest` is `c`, or one of `rest`, with `c` in front of what is in front. -/
theorem exists_eq_append_cons_iff {c : Char} {rest : List Char}
    (P : List Char → List Char → Prop) :
    (∃ before after, c :: rest = before ++ separator :: after ∧ P before after) ↔
      (c = separator ∧ P [] rest) ∨
        ∃ before after, rest = before ++ separator :: after ∧ P (c :: before) after := by
  constructor
  · rintro ⟨_ | ⟨d, before⟩, after, hrest, hP⟩
    · obtain ⟨rfl, rfl⟩ := List.cons.inj hrest
      exact .inl ⟨rfl, hP⟩
    · obtain ⟨rfl, rfl⟩ := List.cons.inj hrest
      exact .inr ⟨before, after, rfl, hP⟩
  · rintro (⟨rfl, hP⟩ | ⟨before, after, rfl, hP⟩)
    · exact ⟨[], rest, rfl, hP⟩
    · exact ⟨c :: before, after, rfl, hP⟩

/-- The rest of a list is cut where the groups that are open in front of it, and those that open
in it, leave its separators outside. -/
theorem isCut_splitTopLevelFrom (nesting : Nesting) (piece rest : List Char) (offset : Nat) :
    IsCut separator (splitTopLevelFrom separator nesting piece rest) offset ↔
      ∃ before after, rest = before ++ separator :: after ∧
        (before.foldl Nesting.after nesting).splits separator separator = true ∧
        offset = Text.width piece + Text.width before := by
  induction rest generalizing nesting piece offset with
  | nil =>
    rw [splitTopLevelFrom]
    refine iff_of_false (isCut_singleton offset) ?_
    rintro ⟨before, after, hrest, -⟩
    simp at hrest
  | cons c rest ih =>
    rw [splitTopLevelFrom, exists_eq_append_cons_iff]
    simp only [List.foldl_nil, List.foldl_cons, Text.width_nil, Text.width_cons, Nat.add_zero]
    by_cases hsplit : nesting.splits separator c = true
    · have hc : c = separator := by
        simp only [Nesting.splits, Bool.and_eq_true, beq_iff_eq] at hsplit
        exact hsplit.1.1
      subst hc
      rw [if_pos hsplit, isCut_cons (splitTopLevelFrom_ne_nil _ _ _ _)]
      simp only [ih, Text.width_nil, Nat.zero_add, Text.width_reverse, hsplit, true_and]
      refine or_congr_right ?_
      constructor
      · rintro ⟨_, ⟨before, after, hrest, hs, rfl⟩, rfl⟩
        exact ⟨before, after, hrest, hs, Nat.add_assoc _ _ _⟩
      · rintro ⟨before, after, hrest, hs, rfl⟩
        exact ⟨_, ⟨before, after, hrest, hs, rfl⟩, (Nat.add_assoc _ _ _).symm⟩
    · have hnot : ¬ (c = separator ∧ nesting.splits separator separator = true ∧
          offset = Text.width piece) := by
        rintro ⟨rfl, hs, -⟩
        exact hsplit hs
      rw [if_neg hsplit, ih, or_iff_right hnot]
      simp only [Text.width_cons, Nat.add_assoc, Nat.add_left_comm]

end

/-- A split loses nothing: its pieces, with the separator put back between them, are the text, and
each of them stands behind the pieces in front of it and as many separators.  It cuts at the
separators in front of which as many brackets were closed as opened and no angle is open, and at
these alone; where the separator is itself a bracket or `<`, it does not cut at all. -/
theorem splitTopLevel_cuts (separator : Char) (text : List Char) :
    Text.join [separator] (splitTopLevel separator text) = text ∧
    (∀ offset, IsCut separator (splitTopLevel separator text) offset ↔
      ∃ before after, text = before ++ separator :: after ∧ Text.width before = offset ∧
        separator ∉ Nesting.cannotSplit ∧ LeavesNone before) ∧
    ∀ k piece, (splitTopLevel separator text)[k]? = some piece →
      Text.slice? text (pieceStart separator (splitTopLevel separator text) k)
        (pieceStart separator (splitTopLevel separator text) k + Text.width piece) =
          some piece := by
  refine ⟨join_splitTopLevel separator text, fun offset => ?_, fun k piece h => ?_⟩
  · rw [splitTopLevel, isCut_splitTopLevelFrom]
    simp only [Nesting.splits_foldl_iff, Text.width_nil, Nat.zero_add]
    refine exists_congr fun before => exists_congr fun after => and_congr_right fun _ => ?_
    rw [and_comm, eq_comm]
  · have hslice := @slice?_join separator _ _ _ h
    rwa [join_splitTopLevel] at hslice

theorem splitTopLevel_cuts_generics :
    (splitTopLevel ',' "Map<é, List<V>> m,(a, b), x".toList)[1]? = some "(a, b)".toList ∧
      Text.slice? "Map<é, List<V>> m,(a, b), x".toList
        (pieceStart ',' (splitTopLevel ',' "Map<é, List<V>> m,(a, b), x".toList) 1)
        (pieceStart ',' (splitTopLevel ',' "Map<é, List<V>> m,(a, b), x".toList) 1 +
          Text.width "(a, b)".toList) = some "(a, b)".toList ∧
      pieceStart ',' (splitTopLevel ',' "Map<é, List<V>> m,(a, b), x".toList) 1 = 19 := by
  have hpiece : (splitTopLevel ',' "Map<é, List<V>> m,(a, b), x".toList)[1]? =
      some "(a, b)".toList := by decide
  exact ⟨hpiece, (splitTopLevel_cuts ',' _).2.2 1 _ hpiece, by decide⟩

end Outline
