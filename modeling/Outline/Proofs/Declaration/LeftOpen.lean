import Mathlib.Order.Bounds.Basic
import Outline.Proofs.Declaration.LineCheck
import Outline.Proofs.Declaration.Paired
import Outline.Proofs.Declaration.Parens
import Outline.Proofs.Source.Balanced

/-!
# Where errors of parentheses stand

What is kept of a line that starts with nothing open is a stack of the parentheses that are left
open: between two of them, and behind the last one, the parentheses pair up.  The bottom of the
stack is the leftmost, and it is the one that is reported.  A parenthesis that closes nothing is
met when the stack is empty, so it stands in front of all that are left open behind it, and the
errors of a line come in the order of their columns.
-/

namespace Outline

/-- A diagnostic on an earlier line, or further left on the same one. -/
def Diagnostic.Before (a b : Diagnostic) : Prop :=
  a.line < b.line ∨ a.line = b.line ∧ a.column < b.column

namespace Delimiter

variable {opening closing : Char} {depth : Nat} {text : List Char}

/-- A balanced text closes what is open in front of it and all that it opens. -/
theorem count_of_balancedFrom (hne : opening ≠ closing)
    (h : balancedFrom opening closing depth text = true) :
    text.count closing = depth + text.count opening := by
  induction text generalizing depth with
  | nil =>
    obtain rfl : depth = 0 := beq_iff_eq.mp h
    rfl
  | cons c text ih =>
    rw [balancedFrom] at h
    split at h
    · next ho =>
      subst ho
      rw [List.count_cons_self, List.count_cons_of_ne hne, ih h]
      omega
    · next ho =>
      rw [List.count_cons_of_ne ho]
      split at h
      · next hc =>
        subst hc
        rw [Bool.and_eq_true, decide_eq_true_eq] at h
        rw [List.count_cons_self, ih h.2]
        omega
      · next hc => rw [List.count_cons_of_ne hc, ih h]

/-- A group that is closed behind a balanced text is balanced. -/
theorem balanced_group (hne : opening ≠ closing) (h : balanced opening closing text = true) :
    balanced opening closing (opening :: (text ++ [closing])) = true := by
  have hclose : balancedFrom opening closing 1 [closing] = true := by
    simp [balancedFrom, hne.symm]
  rw [balanced, balancedFrom, if_pos rfl]
  exact balancedFrom_append h hclose

end Delimiter

namespace LineCheck

/-! ## Parentheses that are left open -/

/-- In a line the parenthesis that opens in one column is closed by that in another: what stands
between them pairs up. -/
structure Closes (row : List Char) (opening closing : Nat) : Prop where
  lt : opening < closing
  opens : row[opening]? = some '('
  closes : row[closing]? = some ')'
  paired : Delimiter.balanced '(' ')' ((row.take closing).drop (opening + 1)) = true

/-- A parenthesis opens in a column of a line, and none behind it closes it. -/
def LeftOpen (row : List Char) (column : Nat) : Prop :=
  row[column]? = some '(' ∧ ∀ closing, ¬ Closes row column closing

theorem closes_append {front : List Char} {c : Char} {opening closing : Nat} :
    Closes (front ++ [c]) opening closing ↔ Closes front opening closing ∨
      closing = front.length ∧ c = ')' ∧ front[opening]? = some '(' ∧
        Delimiter.balanced '(' ')' (front.drop (opening + 1)) = true := by
  constructor
  · rintro ⟨hlt, hopens, hcloses, hpaired⟩
    obtain ⟨hbound, -⟩ := List.getElem?_eq_some_iff.mp hcloses
    rw [List.length_append, List.length_singleton] at hbound
    have hopening : front[opening]? = some '(' := by
      rwa [List.getElem?_append_left (by omega)] at hopens
    rw [List.take_append_of_le_length (by omega)] at hpaired
    rcases Nat.lt_succ_iff_lt_or_eq.mp hbound with h | rfl
    · rw [List.getElem?_append_left h] at hcloses
      exact .inl ⟨hlt, hopening, hcloses, hpaired⟩
    · rw [List.take_length] at hpaired
      exact .inr ⟨rfl, by simpa using hcloses, hopening, hpaired⟩
  · rintro (⟨hlt, hopens, hcloses, hpaired⟩ | ⟨rfl, rfl, hopens, hpaired⟩)
    · obtain ⟨hbound, -⟩ := List.getElem?_eq_some_iff.mp hcloses
      refine ⟨hlt, ?_, ?_, ?_⟩
      · rwa [List.getElem?_append_left (by omega)]
      · rwa [List.getElem?_append_left hbound]
      · rwa [List.take_append_of_le_length (by omega)]
    · obtain ⟨hbound, -⟩ := List.getElem?_eq_some_iff.mp hopens
      refine ⟨hbound, ?_, by simp, ?_⟩
      · rwa [List.getElem?_append_left hbound]
      · rwa [List.take_left]

/-- One more character of a line opens a parenthesis, or it closes what has been left open in
front of a balanced rest. -/
theorem leftOpen_append {front : List Char} {c : Char} {column : Nat} :
    LeftOpen (front ++ [c]) column ↔
      column = front.length ∧ c = '(' ∨
        LeftOpen front column ∧
          ¬ (c = ')' ∧ Delimiter.balanced '(' ')' (front.drop (column + 1)) = true) := by
  constructor
  · rintro ⟨hopens, hleft⟩
    obtain ⟨hbound, -⟩ := List.getElem?_eq_some_iff.mp hopens
    rw [List.length_append, List.length_singleton] at hbound
    rcases Nat.lt_succ_iff_lt_or_eq.mp hbound with h | rfl
    · rw [List.getElem?_append_left h] at hopens
      refine .inr ⟨⟨hopens, fun closing hclosing => ?_⟩, fun hc => ?_⟩
      · exact hleft closing (closes_append.mpr (.inl hclosing))
      · exact hleft front.length (closes_append.mpr (.inr ⟨rfl, hc.1, hopens, hc.2⟩))
    · exact .inl ⟨rfl, by simpa using hopens⟩
  · rintro (⟨rfl, rfl⟩ | ⟨⟨hopens, hleft⟩, hc⟩)
    · refine ⟨by simp, fun closing hclosing => ?_⟩
      rcases closes_append.mp hclosing with h | ⟨rfl, h, -⟩
      · have := h.opens
        simp at this
      · exact absurd h (by decide)
    · obtain ⟨hbound, -⟩ := List.getElem?_eq_some_iff.mp hopens
      refine ⟨by rwa [List.getElem?_append_left hbound], fun closing hclosing => ?_⟩
      rcases closes_append.mp hclosing with h | ⟨-, h, -, hpaired⟩
      · exact hleft closing h
      · exact hc ⟨h, hpaired⟩

/-! ## The stack of a line -/

/-- The columns of open parentheses of a text, the nearest to its end first: between two of them,
and behind the first, the parentheses pair up. -/
def Stacked : List Char → List Nat → Prop
  | _, [] => True
  | front, column :: more =>
    ∃ before between, front = before ++ '(' :: between ∧ before.length = column ∧
      Delimiter.balanced '(' ')' between = true ∧ Stacked before more

namespace Stacked

variable {front : List Char} {opened : List Nat}

theorem lt_length (h : Stacked front opened) : ∀ column ∈ opened, column < front.length := by
  induction opened generalizing front with
  | nil => simp
  | cons top opened ih =>
    obtain ⟨before, between, rfl, rfl, -, hmore⟩ := h
    rw [List.forall_mem_cons]
    have hlength : before.length < (before ++ '(' :: between).length := by simp
    exact ⟨hlength, fun column hc => (ih hmore column hc).trans hlength⟩

theorem pairwise (h : Stacked front opened) : opened.Pairwise (· > ·) := by
  induction opened generalizing front with
  | nil => exact .nil
  | cons top opened ih =>
    obtain ⟨before, between, -, rfl, -, hmore⟩ := h
    exact .cons hmore.lt_length (ih hmore)

theorem append_balanced (h : Stacked front opened) {text : List Char}
    (ht : Delimiter.balanced '(' ')' text = true) : Stacked (front ++ text) opened := by
  cases opened with
  | nil => trivial
  | cons top opened =>
    obtain ⟨before, between, rfl, rfl, hbetween, hmore⟩ := h
    exact ⟨before, between ++ text, by simp, rfl, Delimiter.balanced_append hbetween ht, hmore⟩

theorem append_opening (h : Stacked front opened) :
    Stacked (front ++ ['(']) (front.length :: opened) :=
  ⟨front, [], rfl, rfl, rfl, h⟩

theorem append_closing (h : Stacked front opened) : Stacked (front ++ [')']) opened.tail := by
  cases opened with
  | nil => trivial
  | cons top opened =>
    obtain ⟨before, between, rfl, -, hbetween, hmore⟩ := h
    rw [List.append_assoc]
    exact hmore.append_balanced (Delimiter.balanced_group (by decide) hbetween)

theorem drop_opening (before between : List Char) :
    (before ++ '(' :: between).drop (before.length + 1) = between := by
  rw [List.drop_append]
  simp

/-- Behind an open parenthesis as many are open as stand above it on the stack. -/
theorem count_drop (h : Stacked front opened) {index column : Nat}
    (hc : opened[index]? = some column) :
    (front.drop (column + 1)).count '(' = (front.drop (column + 1)).count ')' + index := by
  induction opened generalizing front index with
  | nil => simp at hc
  | cons top opened ih =>
    obtain ⟨before, between, rfl, rfl, hbetween, hmore⟩ := h
    have hcount := Delimiter.count_of_balancedFrom (by decide) hbetween
    cases index with
    | zero =>
      obtain rfl : before.length = column := by simpa using hc
      rw [drop_opening]
      omega
    | succ index =>
      rw [List.getElem?_cons_succ] at hc
      have hlt : column + 1 ≤ before.length := hmore.lt_length column (List.mem_of_getElem? hc)
      have hrest := ih hmore hc
      rw [List.drop_append_of_le_length hlt, List.count_append, List.count_append,
        List.count_cons_self, List.count_cons_of_ne (by decide)]
      omega

/-- What closes behind a stack closes the top of it. -/
theorem balanced_drop_iff (h : Stacked front opened) {column : Nat} (hc : column ∈ opened) :
    Delimiter.balanced '(' ')' (front.drop (column + 1)) = true ↔ opened.head? = some column := by
  constructor
  · intro hbalanced
    obtain ⟨index, hindex⟩ := List.mem_iff_getElem?.mp hc
    have hcount := h.count_drop hindex
    have hpaired := Delimiter.count_of_balancedFrom (by decide) hbalanced
    obtain rfl : index = 0 := by omega
    rwa [List.head?_eq_getElem?]
  · intro hhead
    obtain ⟨more, rfl⟩ := List.head?_eq_some_iff.mp hhead
    obtain ⟨before, between, rfl, rfl, hbetween, -⟩ := h
    rwa [drop_opening]

/-- What is left of a stack when its top is closed. -/
theorem mem_tail_iff (h : Stacked front opened) {column : Nat} :
    column ∈ opened.tail ↔
      column ∈ opened ∧ ¬ Delimiter.balanced '(' ')' (front.drop (column + 1)) = true := by
  have hiff : column ∈ opened →
      (Delimiter.balanced '(' ')' (front.drop (column + 1)) = true ↔
        opened.head? = some column) := h.balanced_drop_iff
  cases opened with
  | nil => simp
  | cons top opened =>
    have hnotin : top ∉ opened := fun hm =>
      Nat.lt_irrefl top (List.rel_of_pairwise_cons h.pairwise hm)
    rw [List.tail_cons]
    constructor
    · intro hm
      have hne : top ≠ column := fun heq => hnotin (heq ▸ hm)
      refine ⟨List.mem_cons_of_mem top hm, fun hb => hne ?_⟩
      simpa using (hiff (List.mem_cons_of_mem top hm)).mp hb
    · rintro ⟨hm, hb⟩
      rcases List.mem_cons.mp hm with rfl | hm
      · exact absurd ((hiff List.mem_cons_self).mpr rfl) hb
      · exact hm

end Stacked

/-! ## What is kept of a line -/

namespace Parens

/-- What closes nothing is kept from left to right. -/
structure Reported (parens : Parens) (column : Nat) : Prop where
  pairwise : parens.unexpected.Pairwise (· < ·)
  lt : ∀ earlier ∈ parens.unexpected, earlier < column

theorem Reported.next {parens : Parens} {column : Nat} (h : parens.Reported column) (c : Char) :
    (parens.next column c).Reported (column + 1) where
  pairwise := by
    refine List.pairwise_append.mpr ⟨h.pairwise, ?_, fun earlier hearlier later hlater => ?_⟩
    · split <;> simp
    · rw [List.mem_ite_nil_right, List.mem_singleton] at hlater
      exact hlater.2 ▸ h.lt earlier hearlier
  lt earlier hearlier := by
    rcases List.mem_append.mp hearlier with hkept | hnew
    · exact Nat.lt_succ_of_lt (h.lt earlier hkept)
    · rw [List.mem_ite_nil_right, List.mem_singleton] at hnew
      omega

theorem Reported.read {parens : Parens} {column : Nat} (h : parens.Reported column)
    (rest : List Char) : (parens.read column rest).Reported (column + rest.length) := by
  induction rest generalizing parens column with
  | nil => exact h
  | cons c rest ih =>
    rw [read_cons, List.length_cons, Nat.add_comm rest.length, ← Nat.add_assoc]
    exact ih (h.next c)

/-- What is kept of a text in front of which nothing is open. -/
structure Reads (parens : Parens) (front : List Char) : Prop where
  reported : parens.Reported front.length
  length_opened : parens.opened.length = parens.depth
  stacked : Stacked front parens.opened
  mem_opened : ∀ column, column ∈ parens.opened ↔ LeftOpen front column
  unexpected_lt : ∀ column ∈ parens.unexpected, ∀ left ∈ parens.opened, column < left

theorem reads_start : Reads ⟨0, [], []⟩ [] where
  reported := ⟨.nil, by simp⟩
  length_opened := rfl
  stacked := trivial
  mem_opened column := by simp [LeftOpen]
  unexpected_lt := by simp

variable {parens : Parens} {front : List Char}

theorem next_opening (parens : Parens) (column : Nat) :
    parens.next column '(' =
      ⟨parens.depth + 1, column :: parens.opened, parens.unexpected⟩ := by
  simp [next, depthAfter]

theorem next_closing (parens : Parens) (column : Nat) :
    parens.next column ')' = ⟨parens.depth - 1, parens.opened.tail,
      parens.unexpected ++ if parens.depth = 0 then [column] else []⟩ := by
  simp [next, depthAfter]

theorem next_other {c : Char} (ho : c ≠ '(') (hc : c ≠ ')') (parens : Parens) (column : Nat) :
    parens.next column c = parens := by
  simp [next, depthAfter, ho, hc]

theorem Reads.opening (h : parens.Reads front) :
    (parens.next front.length '(').Reads (front ++ ['(']) where
  reported := by
    rw [List.length_append]
    exact h.reported.next '('
  length_opened := by
    rw [next_opening, List.length_cons, h.length_opened]
  stacked := by
    rw [next_opening]
    exact h.stacked.append_opening
  mem_opened column := by
    rw [next_opening, leftOpen_append, ← h.mem_opened]
    simp
  unexpected_lt column hcolumn left hleft := by
    rw [next_opening] at hcolumn hleft
    rcases List.mem_cons.mp hleft with rfl | hleft
    · exact h.reported.lt column hcolumn
    · exact h.unexpected_lt column hcolumn left hleft

theorem Reads.closing (h : parens.Reads front) :
    (parens.next front.length ')').Reads (front ++ [')']) where
  reported := by
    rw [List.length_append]
    exact h.reported.next ')'
  length_opened := by
    rw [next_closing, List.length_tail, h.length_opened]
  stacked := by
    rw [next_closing]
    exact h.stacked.append_closing
  mem_opened column := by
    rw [next_closing, leftOpen_append, ← h.mem_opened, h.stacked.mem_tail_iff]
    simp
  unexpected_lt column hcolumn left hleft := by
    rw [next_closing] at hcolumn hleft
    rcases List.mem_append.mp hcolumn with hkept | hnew
    · exact h.unexpected_lt column hkept left (List.mem_of_mem_tail hleft)
    · -- Where something closes nothing, nothing is open.
      rw [List.mem_ite_nil_right] at hnew
      have hnone : parens.opened = [] := List.length_eq_zero_iff.mp (h.length_opened.trans hnew.1)
      rw [hnone] at hleft
      exact absurd hleft List.not_mem_nil

theorem Reads.other (h : parens.Reads front) {c : Char} (ho : c ≠ '(') (hc : c ≠ ')') :
    parens.Reads (front ++ [c]) where
  reported := by
    rw [List.length_append, ← next_other ho hc parens front.length]
    exact h.reported.next c
  length_opened := h.length_opened
  stacked := h.stacked.append_balanced (Delimiter.balanced_of_not_mem (by simpa using Ne.symm ho)
    (by simpa using Ne.symm hc))
  mem_opened column := by
    rw [leftOpen_append, ← h.mem_opened]
    simp [ho, hc]
  unexpected_lt := h.unexpected_lt

/-- One more character of the text. -/
theorem Reads.next (h : parens.Reads front) (c : Char) :
    (parens.next front.length c).Reads (front ++ [c]) := by
  by_cases ho : c = '('
  · exact ho ▸ h.opening
  by_cases hc : c = ')'
  · exact hc ▸ h.closing
  · rw [next_other ho hc]
    exact h.other ho hc

/-- The bottom of the stack is the leftmost parenthesis that is left open. -/
theorem Reads.isLeast (h : parens.Reads front) (hpos : 0 < parens.depth) :
    ∃ column, parens.opened.getLast? = some column ∧
      IsLeast {column | LeftOpen front column} column := by
  rcases List.eq_nil_or_concat parens.opened with hnone | ⟨above, column, hopened⟩
  · rw [← h.length_opened, hnone] at hpos
    exact absurd hpos (Nat.lt_irrefl 0)
  · rw [List.concat_eq_append] at hopened
    refine ⟨column, by rw [hopened, List.getLast?_concat], ?_, fun other hother => ?_⟩
    · exact (h.mem_opened column).mp (by simp [hopened])
    · have hmem := (h.mem_opened other).mpr hother
      have hpairwise := h.stacked.pairwise
      rw [hopened, List.pairwise_append] at hpairwise
      rw [hopened, List.mem_append, List.mem_singleton] at hmem
      rcases hmem with hmem | rfl
      · exact Nat.le_of_lt (hpairwise.2.2 other hmem column (List.mem_singleton_self column))
      · exact Nat.le_refl _

theorem Reads.read (h : parens.Reads front) (rest : List Char) :
    (parens.read front.length rest).Reads (front ++ rest) := by
  induction rest generalizing parens front with
  | nil => rwa [List.append_nil]
  | cons c rest ih =>
    have hnext := ih (h.next c)
    rw [List.length_append, List.length_singleton, List.append_assoc] at hnext
    rwa [read_cons]

/-- What is kept of a line that starts with nothing open. -/
theorem reads_line (line : List Char) : (Parens.read ⟨0, [], []⟩ 0 line).Reads line :=
  reads_start.read line

end Parens

/-! ## The hints of a text -/

/-- Where an error stands among lines that are numbered from one on: in the column of a
parenthesis that closes, or in that of the leftmost one on its line that is left open. -/
def PointsAt (number : Nat) (lines : List (List Char)) (diagnostic : Diagnostic) : Prop :=
  ∃ index row column, lines[index]? = some row ∧
    (diagnostic = unexpectedClose (number + index) (column + 1) ∧ row[column]? = some ')' ∨
      diagnostic = unclosedOpen (number + index) (column + 1) ∧
        IsLeast {column | LeftOpen row column} column)

/-- Whether an error is about a parenthesis that is left open. -/
def isUnclosed (diagnostic : Diagnostic) : Bool :=
  diagnostic == unclosedOpen diagnostic.line diagnostic.column

/-- Where the hints for lines numbered from one on stand, and in which order. -/
structure Located (number : Nat) (lines : List (List Char)) (hints : LineHints) : Prop where
  errors : hints.errors.Pairwise Diagnostic.Before
  points : ∀ diagnostic ∈ hints.errors, PointsAt number lines diagnostic
  unclosed : (hints.errors.filter isUnclosed).Pairwise (·.line < ·.line)
  warnings : hints.warnings.Pairwise (·.line < ·.line)

theorem PointsAt.cons {number : Nat} {line : List Char} {lines : List (List Char)}
    {diagnostic : Diagnostic} (h : PointsAt (number + 1) lines diagnostic) :
    PointsAt number (line :: lines) diagnostic := by
  obtain ⟨index, other, column, hline, h⟩ := h
  refine ⟨index + 1, other, column, hline, ?_⟩
  rwa [show number + (index + 1) = number + 1 + index by omega]

/-- What is reported of one line. -/
structure LineErrors (number : Nat) (line : List Char) (errors : List Diagnostic) : Prop where
  line_eq : ∀ diagnostic ∈ errors, diagnostic.line = number
  pairwise : errors.Pairwise (·.column < ·.column)
  points : ∀ diagnostic ∈ errors, ∀ lines, PointsAt number (line :: lines) diagnostic
  unclosed : (errors.filter isUnclosed).length ≤ 1

theorem length_ite_singleton_le {α : Type} {condition : Prop} [Decidable condition] {entry : α} :
    (if condition then [entry] else []).length ≤ 1 := by
  split <;> simp

/-- The errors of one line: first what closes nothing, then the leftmost parenthesis that is left
open. -/
theorem lineErrors (number depth : Nat) (line : List Char) {unclosed : Bool}
    (hunclosed : unclosed = true →
      depth = 0 ∧ 0 < (Parens.read ⟨depth, [], []⟩ 0 line).depth) :
    LineErrors number line
      ((Parens.read ⟨depth, [], []⟩ 0 line).unexpected.map
          (fun column => unexpectedClose number (column + 1)) ++
        if unclosed then
          [unclosedOpen number
            ((Parens.read ⟨depth, [], []⟩ 0 line).opened.getLast?.getD 0 + 1)]
        else []) := by
  have hreported : (Parens.read ⟨depth, [], []⟩ 0 line).Reported (0 + line.length) :=
    Parens.Reported.read ⟨.nil, by simp⟩ line
  have hpoints : (Parens.read ⟨depth, [], []⟩ 0 line).PointsInto line :=
    Parens.PointsInto.read (Parens.pointsInto_start ([] ++ line) depth)
  have hopen : unclosed = true → ∃ column,
      (Parens.read ⟨depth, [], []⟩ 0 line).opened.getLast? = some column ∧
        IsLeast {column | LeftOpen line column} column ∧
        ∀ earlier ∈ (Parens.read ⟨depth, [], []⟩ 0 line).unexpected, earlier < column := by
    intro h
    obtain ⟨rfl, hpos⟩ := hunclosed h
    obtain ⟨column, hlast, hleast⟩ := (Parens.reads_line line).isLeast hpos
    exact ⟨column, hlast, hleast, fun earlier he =>
      (Parens.reads_line line).unexpected_lt earlier he column (List.mem_of_getLast? hlast)⟩
  generalize Parens.read ⟨depth, [], []⟩ 0 line = parens at hreported hpoints hopen ⊢
  have hnone : (parens.unexpected.map fun column => unexpectedClose number (column + 1)).filter
      isUnclosed = [] := by
    rw [List.filter_eq_nil_iff]
    intro diagnostic hd
    obtain ⟨column, -, rfl⟩ := List.mem_map.mp hd
    simp [isUnclosed, unexpectedClose, unclosedOpen]
  refine { line_eq := ?line, pairwise := ?pairwise, points := ?points, unclosed := ?unclosed }
  case line =>
    intro diagnostic hd
    rcases List.mem_append.mp hd with hd | hd
    · obtain ⟨column, -, rfl⟩ := List.mem_map.mp hd
      rfl
    · rw [List.mem_ite_nil_right, List.mem_singleton] at hd
      rw [hd.2]
      rfl
  case pairwise =>
    refine List.pairwise_append.mpr ⟨?_, ?_, ?_⟩
    · rw [List.pairwise_map]
      exact hreported.pairwise.imp fun hlt => Nat.succ_lt_succ hlt
    · split <;> simp
    · intro earlier he later hl
      obtain ⟨column, hcolumn, rfl⟩ := List.mem_map.mp he
      rw [List.mem_ite_nil_right, List.mem_singleton] at hl
      obtain ⟨left, hlast, -, hlt⟩ := hopen hl.1
      rw [hl.2, hlast]
      exact Nat.succ_lt_succ (hlt column hcolumn)
  case points =>
    intro diagnostic hd lines
    rcases List.mem_append.mp hd with hd | hd
    · obtain ⟨column, hcolumn, rfl⟩ := List.mem_map.mp hd
      exact ⟨0, line, column, rfl, .inl ⟨rfl, hpoints.unexpected column hcolumn⟩⟩
    · rw [List.mem_ite_nil_right, List.mem_singleton] at hd
      obtain ⟨left, hlast, hleast, -⟩ := hopen hd.1
      exact ⟨0, line, left, rfl, .inr ⟨by rw [hd.2, hlast]; rfl, hleast⟩⟩
  case unclosed =>
    rw [List.filter_append, hnone, List.nil_append]
    exact (List.length_filter_le _ _).trans length_ite_singleton_le

theorem pairwise_of_length_le_one {α : Type} {R : α → α → Prop} {entries : List α}
    (h : entries.length ≤ 1) : entries.Pairwise R := by
  match entries, h with
  | [], _ => exact .nil
  | [entry], _ => exact List.pairwise_singleton R entry

/-- What is said of a line comes in front of what is said of the lines below it. -/
theorem Located.cons {number : Nat} {line : List Char} {lines : List (List Char)}
    {errors warnings : List Diagnostic} {later : LineHints}
    (hline : LineErrors number line errors)
    (hwarning : warnings.length ≤ 1 ∧ ∀ diagnostic ∈ warnings, diagnostic.line = number)
    (hlater : Located (number + 1) lines later)
    (hbelow : ∀ diagnostic, diagnostic ∈ later.errors ∨ diagnostic ∈ later.warnings →
      number < diagnostic.line) :
    Located number (line :: lines) ⟨errors ++ later.errors, warnings ++ later.warnings⟩ where
  errors := by
    refine List.pairwise_append.mpr ⟨?_, hlater.errors, fun a ha b hb => .inl ?_⟩
    · refine hline.pairwise.imp_of_mem fun ha hb hlt => .inr ⟨?_, hlt⟩
      rw [hline.line_eq _ ha, hline.line_eq _ hb]
    · rw [hline.line_eq a ha]
      exact hbelow b (.inl hb)
  points diagnostic hd := by
    rcases List.mem_append.mp hd with hd | hd
    · exact hline.points diagnostic hd lines
    · exact (hlater.points diagnostic hd).cons
  unclosed := by
    rw [List.filter_append]
    refine List.pairwise_append.mpr ⟨?_, hlater.unclosed, fun a ha b hb => ?_⟩
    · exact pairwise_of_length_le_one hline.unclosed
    · rw [hline.line_eq a (List.mem_filter.mp ha).1]
      exact hbelow b (.inl (List.mem_filter.mp hb).1)
  warnings := by
    refine List.pairwise_append.mpr ⟨?_, hlater.warnings, fun a ha b hb => ?_⟩
    · exact pairwise_of_length_le_one hwarning.1
    · rw [hwarning.2 a ha]
      exact hbelow b (.inr hb)

theorem located_checkFrom (rules : LineRules) (number depth : Nat) (lines : List (List Char)) :
    Located number lines (checkFrom rules number depth lines) := by
  induction lines generalizing number depth with
  | nil => exact ⟨.nil, by simp [checkFrom], .nil, .nil⟩
  | cons line lines ih =>
    rw [checkFrom]
    refine .cons (lineErrors number depth line ?_) ?_ (ih _ _) fun diagnostic hd =>
      (hintOn_of_mem_checkFrom hd).first_le
    · simp only [Bool.and_eq_true, beq_iff_eq, decide_eq_true_eq]
      exact fun h => ⟨h.1.2, h.2⟩
    · refine ⟨length_ite_singleton_le, fun diagnostic hd => ?_⟩
      rw [List.mem_ite_nil_right, List.mem_singleton] at hd
      rw [hd.2]
      rfl

/-- Where the hints for a text stand.  Its errors come in the order of their places.  Each stands
at a parenthesis that closes, or at the leftmost one of its line that opens and that nothing
behind it on the line closes, and at most one of a line is of the latter kind.  Warnings come in
the order of their lines, no two on one. -/
theorem located_check (rules : LineRules) (text : List Char) :
    Located 1 (Text.lines text) (check rules text) :=
  located_checkFrom rules 1 0 _

end LineCheck
end Outline
