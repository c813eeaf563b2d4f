import Outline.Declaration.LineCheck
import Outline.Proofs.Source.Balanced
import Outline.Proofs.Text.Line

/-!
# The hints of the line checks

Each hint names the line it was found on, counted from the first line that was
checked, and a column that counts from one.
-/

namespace Outline

/-- A hint on one of the lines from `first` up to but not including `stop`. -/
structure Diagnostic.HintOn (first stop : Nat) (diagnostic : Diagnostic) : Prop where
  first_le : first ≤ diagnostic.line
  lt_stop : diagnostic.line < stop
  one_le_column : 1 ≤ diagnostic.column
  code : diagnostic.code = some LineCheck.unbalancedCode ∨
    diagnostic.code = some LineCheck.missingCode

namespace LineCheck

theorem HintOn.weaken {first stop : Nat} {diagnostic : Diagnostic}
    (h : diagnostic.HintOn (first + 1) stop) : diagnostic.HintOn first stop :=
  ⟨Nat.le_of_succ_le h.first_le, h.lt_stop, h.one_le_column, h.code⟩

theorem hintOn_of_mem_checkFrom {rules : LineRules} {lines : List (List Char)} {number depth : Nat}
    {diagnostic : Diagnostic}
    (h : diagnostic ∈ (checkFrom rules number depth lines).errors ∨
      diagnostic ∈ (checkFrom rules number depth lines).warnings) :
    diagnostic.HintOn number (number + lines.length) := by
  induction lines generalizing number depth with
  | nil => simp [checkFrom] at h
  | cons line lines ih =>
    have hstop : number + (line :: lines).length = number + 1 + lines.length := by
      rw [List.length_cons]; omega
    have hlt : number < number + (line :: lines).length := by rw [hstop]; omega
    have hlater : ∀ {depth},
        (diagnostic ∈ (checkFrom rules (number + 1) depth lines).errors ∨
          diagnostic ∈ (checkFrom rules (number + 1) depth lines).warnings) →
        diagnostic.HintOn number (number + (line :: lines).length) := by
      intro depth h
      rw [hstop]
      exact HintOn.weaken (ih h)
    simp only [checkFrom, List.mem_append, List.mem_map] at h
    rcases h with ((⟨column, _, rfl⟩ | h) | h) | (h | h)
    · exact ⟨Nat.le_refl _, hlt, Nat.le_add_left _ _, Or.inl rfl⟩
    · rw [List.mem_ite_nil_right, List.mem_singleton] at h
      obtain ⟨_, rfl⟩ := h
      exact ⟨Nat.le_refl _, hlt, Nat.le_add_left _ _, Or.inl rfl⟩
    · exact hlater (Or.inl h)
    · rw [List.mem_ite_nil_right, List.mem_singleton] at h
      obtain ⟨_, rfl⟩ := h
      exact ⟨Nat.le_refl _, hlt, Nat.le_add_left _ _, Or.inr rfl⟩
    · exact hlater (Or.inr h)

/-- The hints for a text lie on its lines. -/
theorem hintOn_of_mem_check {rules : LineRules} {text : List Char} {diagnostic : Diagnostic}
    (h : diagnostic ∈ (check rules text).errors ∨ diagnostic ∈ (check rules text).warnings) :
    diagnostic.HintOn 1 (text.count '\n' + 2) := by
  have hint := hintOn_of_mem_checkFrom h
  have hlines := Text.length_lines_le text
  exact ⟨hint.first_le, Nat.lt_of_lt_of_le hint.lt_stop (by omega), hint.one_le_column, hint.code⟩

end LineCheck
end Outline

/-!
## Lines without hints

A line whose parentheses pair up and that ends with a mark gives no hint, whatever the lines
around it are, as long as no parenthesis is open in front of it.
-/

namespace Outline

/-! ### Lines of a text -/

namespace Text

theorem linesFrom_append_feed {line : List Char} (h : '\n' ∉ line) (front rest : List Char) :
    linesFrom front (line ++ '\n' :: rest) = chopReturn (front.reverse ++ line) :: lines rest := by
  induction line generalizing front with
  | nil => rw [List.nil_append, linesFrom, if_pos rfl, List.append_nil, lines]
  | cons c line ih =>
    rw [List.mem_cons, not_or] at h
    rw [List.cons_append, linesFrom, if_neg (Ne.symm h.1), ih h.2, List.reverse_cons,
      List.append_assoc]
    rfl

/-- A text of lines that end with a mark is read back line by line. -/
theorem lines_flatMap {texts : List (List Char)} (hfeed : ∀ line ∈ texts, '\n' ∉ line)
    (hreturn : ∀ line ∈ texts, chopReturn line = line) :
    lines (texts.flatMap (· ++ ['\n'])) = texts := by
  induction texts with
  | nil => rfl
  | cons line texts ih =>
    rw [List.forall_mem_cons] at hfeed hreturn
    rw [List.flatMap_cons, List.append_assoc, lines, List.singleton_append,
      linesFrom_append_feed hfeed.1, List.reverse_nil, List.nil_append, hreturn.1,
      ih hfeed.2 hreturn.2]

theorem chopReturn_of_getLast {line : List Char} {c : Char} (hc : c ≠ '\r') :
    chopReturn (line ++ [c]) = line ++ [c] := by
  rw [chopReturn, dropTrail?]
  simp [dropLead?, Ne.symm hc]

theorem getLast?_trim {line : List Char} {c : Char} (hc : isBlank c = false) :
    (trim (line ++ [c])).getLast? = some c := by
  have hstart : ∃ more, trimStart (line ++ [c]) = more ++ [c] := by
    induction line with
    | nil => exact ⟨[], by simp [trimStart, hc]⟩
    | cons d line ih =>
      rw [List.cons_append, trimStart, List.dropWhile_cons]
      split
      · exact ih
      · exact ⟨d :: line, rfl⟩
  obtain ⟨more, hmore⟩ := hstart
  simp [trim, trimEnd, hmore, hc]

end Text

/-! ### Quiet lines -/

namespace LineCheck

/-- What is open in front of a balanced rest of a line is closed behind it. -/
theorem Parens.read_of_balancedFrom {rest : List Char} (opened : List Nat) {unexpected : List Nat}
    (h : Delimiter.balancedFrom '(' ')' opened.length rest = true) (column : Nat) :
    Parens.read ⟨opened.length, opened, unexpected⟩ column rest = ⟨0, [], unexpected⟩ := by
  induction rest generalizing opened column with
  | nil =>
    obtain rfl : opened = [] := List.length_eq_zero_iff.mp (beq_iff_eq.mp h)
    rfl
  | cons c rest ih =>
    rw [Delimiter.balancedFrom] at h
    rw [Parens.read]
    by_cases hopen : c = '('
    · rw [if_pos hopen] at h
      dsimp only
      rw [if_pos hopen]
      exact ih (column :: opened) h (column + 1)
    · rw [if_neg hopen] at h
      dsimp only
      rw [if_neg hopen]
      by_cases hclose : c = ')'
      · rw [if_pos hclose, Bool.and_eq_true, decide_eq_true_eq] at h
        rw [if_pos hclose]
        cases opened with
        | nil => exact absurd h.1 (Nat.lt_irrefl 0)
        | cons top opened => exact ih opened h.2 (column + 1)
      · rw [if_neg hclose] at h
        rw [if_neg hclose]
        exact ih opened h (column + 1)

/-- A line that can stand anywhere between statements. -/
structure QuietLine (line : List Char) : Prop where
  paired : Delimiter.balanced '(' ')' line = true
  ended : ∃ front mark, line = front ++ [mark] ∧ Text.isBlank mark = false ∧ endsOperand mark = false

theorem QuietLine.looksUnterminated_eq {line : List Char} (h : QuietLine line) (rules : LineRules)
    (rest : List (List Char)) : looksUnterminated rules (Text.trim line) rest = false := by
  obtain ⟨front, mark, rfl, hblank, hoperand⟩ := h.ended
  rw [looksUnterminated, Text.getLast?_trim hblank, Option.any_some, hoperand]
  rfl

theorem checkFrom_of_quiet {lines : List (List Char)} (h : ∀ line ∈ lines, QuietLine line)
    (rules : LineRules) (number : Nat) : checkFrom rules number 0 lines = ⟨[], []⟩ := by
  induction lines generalizing number with
  | nil => rfl
  | cons line lines ih =>
    rw [List.forall_mem_cons] at h
    have hparens : Parens.read ⟨0, [], []⟩ 0 line = ⟨0, [], []⟩ :=
      Parens.read_of_balancedFrom [] h.1.paired 0
    rw [checkFrom, hparens, h.1.looksUnterminated_eq]
    simp [ih h.2]

/-- A text of quiet lines gives no hints. -/
theorem check_of_quiet {texts : List (List Char)} (hfeed : ∀ line ∈ texts, '\n' ∉ line)
    (h : ∀ line ∈ texts, QuietLine line) (rules : LineRules) :
    check rules (texts.flatMap (· ++ ['\n'])) = ⟨[], []⟩ := by
  have hreturn : ∀ line ∈ texts, Text.chopReturn line = line := by
    intro line hline
    obtain ⟨front, mark, rfl, hblank, -⟩ := (h line hline).ended
    refine Text.chopReturn_of_getLast ?_
    rintro rfl
    exact absurd hblank (by decide)
  rw [check, Text.lines_flatMap hfeed hreturn]
  exact checkFrom_of_quiet h rules 1

end LineCheck
end Outline
