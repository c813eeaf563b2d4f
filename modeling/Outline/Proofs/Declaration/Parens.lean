import Outline.Declaration.LineCheck

/-!
# Which parentheses are reported

The check of a line counts columns from its start, so each column it keeps is that of a
parenthesis, and what it reports points at one.
-/

namespace Outline
namespace LineCheck

/-- What has been kept of a line points at its parentheses. -/
structure Parens.PointsInto (text : List Char) (parens : Parens) : Prop where
  opened : ∀ column ∈ parens.opened, text[column]? = some '('
  unexpected : ∀ column ∈ parens.unexpected, text[column]? = some ')'

namespace Parens

theorem pointsInto_start (line : List Char) (depth : Nat) :
    PointsInto line ⟨depth, [], []⟩ := ⟨by simp, by simp⟩

theorem PointsInto.read {before rest : List Char} {parens : Parens}
    (h : parens.PointsInto (before ++ rest)) :
    (parens.read before.length rest).PointsInto (before ++ rest) := by
  induction rest generalizing before parens with
  | nil => exact h
  | cons c rest ih =>
    have hhere : (before ++ c :: rest)[before.length]? = some c := by simp
    have hnext : before.length + 1 = (before ++ [c]).length := by simp
    rw [Parens.read, hnext]
    rw [List.append_cons] at h hhere ⊢
    have htail : ∀ column ∈ parens.opened.tail, (before ++ [c] ++ rest)[column]? = some '(' :=
      fun column hm => h.opened column (List.mem_of_mem_tail hm)
    apply ih
    split
    · next hc =>
      refine ⟨fun column hm => ?_, h.unexpected⟩
      rcases List.mem_cons.mp hm with rfl | hm
      · rw [hhere, hc]
      · exact h.opened column hm
    · split
      · next hc =>
        split
        · refine ⟨htail, fun column hm => ?_⟩
          rcases List.mem_append.mp hm with hm | hm
          · exact h.unexpected column hm
          · rw [List.mem_singleton.mp hm, hhere, hc]
        · exact ⟨htail, h.unexpected⟩
      · exact h

/-- Where a line starts with no parenthesis open, those that are open stand on the line. -/
theorem length_opened_read {parens : Parens} (h : parens.opened.length = parens.depth)
    (column : Nat) (rest : List Char) :
    (parens.read column rest).opened.length = (parens.read column rest).depth := by
  induction rest generalizing parens column with
  | nil => exact h
  | cons c rest ih =>
    rw [Parens.read]
    apply ih
    split
    · exact congrArg (· + 1) h
    · split
      · split
        · next hdepth => simp [List.length_tail, h, hdepth]
        · next depth hdepth => simp [List.length_tail, h, hdepth]
      · exact h

end Parens

/-- A report of a parenthesis that stands on one of some lines, the first of which has a
number. -/
def ReportsParen (number : Nat) (lines : List (List Char)) (diagnostic : Diagnostic) : Prop :=
  ∃ line column,
    (diagnostic = unexpectedClose (number + line) (column + 1) ∧
      (lines[line]?).bind (·[column]?) = some ')') ∨
    (diagnostic = unclosedOpen (number + line) (column + 1) ∧
      (lines[line]?).bind (·[column]?) = some '(')

theorem ReportsParen.cons {number : Nat} {line : List Char} {lines : List (List Char)}
    {diagnostic : Diagnostic} (h : ReportsParen (number + 1) lines diagnostic) :
    ReportsParen number (line :: lines) diagnostic := by
  obtain ⟨index, column, h⟩ := h
  refine ⟨index + 1, column, ?_⟩
  rw [show number + (index + 1) = number + 1 + index by omega]
  exact h

theorem reportsParen_of_mem_checkFrom {rules : LineRules} {number depth : Nat}
    {lines : List (List Char)} {diagnostic : Diagnostic}
    (h : diagnostic ∈ (checkFrom rules number depth lines).errors) :
    ReportsParen number lines diagnostic := by
  induction lines generalizing number depth with
  | nil => exact absurd h List.not_mem_nil
  | cons line lines ih =>
    have hpoints : (Parens.read ⟨depth, [], []⟩ 0 line).PointsInto line :=
      Parens.PointsInto.read (Parens.pointsInto_start ([] ++ line) depth)
    simp only [checkFrom, List.mem_append, List.mem_map] at h
    rcases h with (⟨column, hcolumn, rfl⟩ | h) | h
    · exact ⟨0, column, .inl ⟨rfl, hpoints.unexpected column hcolumn⟩⟩
    · rw [List.mem_ite_nil_right, List.mem_singleton] at h
      obtain ⟨hunclosed, rfl⟩ := h
      simp only [Bool.and_eq_true, beq_iff_eq, decide_eq_true_eq] at hunclosed
      obtain ⟨⟨-, rfl⟩, hpos⟩ := hunclosed
      have hlength := @Parens.length_opened_read ⟨0, [], []⟩ rfl 0 line
      refine ⟨0, _, .inr ⟨rfl, hpoints.opened _ ?_⟩⟩
      cases hlast : (Parens.read ⟨0, [], []⟩ 0 line).opened.getLast? with
      | none =>
        rw [List.getLast?_eq_none_iff.mp hlast, List.length_nil] at hlength
        omega
      | some column => exact List.mem_of_getLast? hlast
    · exact (ih h).cons

/-- Every error of the line checks reports a parenthesis of the text. -/
theorem reportsParen_of_mem_check {rules : LineRules} {text : List Char} {diagnostic : Diagnostic}
    (h : diagnostic ∈ (check rules text).errors) :
    ReportsParen 1 (Text.lines text) diagnostic :=
  reportsParen_of_mem_checkFrom h

end LineCheck
end Outline
