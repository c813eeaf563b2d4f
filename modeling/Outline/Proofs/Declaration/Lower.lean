import Outline.Declaration.Docstring
import Outline.Declaration.LineCheck
import Outline.Proofs.Text.Lower

/-!
# Lines further down

Empty lines in front of a text neither document a declaration nor give hints of their
own, and what the others tell is told of lines further down.
-/

namespace Outline

/-! ## Documentation -/

namespace Docstring

variable (skipped : List String) (feeds : Nat) (collected above : List (List Char))

theorem block_append_empty :
    block collected (above ++ List.replicate feeds []) = block collected above := by
  induction above generalizing collected with
  | nil =>
    rw [List.nil_append]
    induction feeds generalizing collected with
    | zero => rfl
    | succ feeds ih => exact ih ([] :: collected)
  | cons raw above ih =>
    rw [List.cons_append, block, block]
    cases Text.fromWord? ['/', '*'] (Text.trim raw) with
    | none => exact ih _
    | some comment => rfl

theorem commentLines_append_empty :
    commentLines skipped collected (above ++ List.replicate feeds []) =
      commentLines skipped collected above := by
  induction above generalizing collected with
  | nil =>
    rw [List.nil_append]
    induction feeds with
    | zero => rfl
    | succ feeds ih => exact ih
  | cons raw above ih =>
    rw [List.cons_append, commentLines, commentLines, ih, ih, block_append_empty]

theorem find_lower (lines : List (List Char)) {line : Nat} (h : 1 ≤ line) :
    find (List.replicate feeds [] ++ lines) (line + feeds) skipped = find lines line skipped := by
  have hlines : (List.replicate feeds [] ++ lines).take (line + feeds - 1) =
      List.replicate feeds [] ++ lines.take (line - 1) := by
    have hline : line + feeds - 1 = (List.replicate feeds ([] : List Char)).length + (line - 1) := by
      rw [List.length_replicate]
      omega
    rw [hline, List.take_length_add_append]
  rw [find, find, hlines, List.reverse_append, List.reverse_replicate, commentLines_append_empty]

end Docstring

/-! ## Hints -/

/-- A diagnostic so many lines further down. -/
def Diagnostic.down (n : Nat) (diagnostic : Diagnostic) : Diagnostic :=
  { diagnostic with line := diagnostic.line + n }

def LineHints.down (n : Nat) (hints : LineHints) : LineHints :=
  ⟨hints.errors.map (Diagnostic.down n), hints.warnings.map (Diagnostic.down n)⟩

namespace LineCheck

variable (rules : LineRules)

theorem checkFrom_add (n number depth : Nat) (lines : List (List Char)) :
    checkFrom rules (number + n) depth lines = (checkFrom rules number depth lines).down n := by
  induction lines generalizing number depth with
  | nil => rfl
  | cons line lines ih =>
    rw [checkFrom, checkFrom, Nat.add_right_comm number n, ih, LineHints.down, LineHints.down]
    simp only [List.map_append, List.map_map, apply_ite (List.map (Diagnostic.down n)),
      List.map_cons, List.map_nil]
    rfl

/-- An empty line gives no hint, and leaves open what is open. -/
theorem checkFrom_empty (number depth : Nat) (lines : List (List Char)) :
    checkFrom rules number depth ([] :: lines) = checkFrom rules (number + 1) depth lines := by
  have hunclosed : Text.endsWith (Text.trim []) [';'] = false := rfl
  have hmissing : looksUnterminated rules (Text.trim []) (lines.map Text.trim) = false := rfl
  rw [checkFrom, hunclosed, hmissing]
  simp [Parens.read]

theorem check_lower (feeds : Nat) (text : List Char) :
    check rules (Text.lower feeds text) = (check rules text).down feeds := by
  have hskip : ∀ (feeds number : Nat) (lines : List (List Char)),
      checkFrom rules number 0 (List.replicate feeds [] ++ lines) =
        checkFrom rules (number + feeds) 0 lines := by
    intro feeds
    induction feeds with
    | zero => exact fun _ _ => rfl
    | succ feeds ih =>
      intro number lines
      have hnumber : number + (feeds + 1) = number + 1 + feeds := by omega
      rw [List.replicate_succ, List.cons_append, checkFrom_empty, ih, hnumber]
  rw [check, check, Text.lines_lower, hskip, checkFrom_add]

end LineCheck
end Outline
