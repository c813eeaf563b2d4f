import Outline.Text.Blank

/-!
The comment that documents a declaration.

The search walks up from the line above the declaration.  It passes over blank
lines, and over annotations while it has found no comment, collects comment
lines, and stops at the first line of code.  A line of code that ends in a
comment is code.
-/

namespace Outline
namespace Docstring

/-- The collected lines with those of a block comment that is entered from
below and whose opening is looked for in the lines above, nearest first.  What
stands in front of the opening is code.  Without an opening the lines are no
comment. -/
def block (collected : List (List Char)) : List (List Char) → List (List Char)
  | [] => []
  | raw :: above =>
    let line := Text.trim raw
    match Text.fromWord? ['/', '*'] line with
    | some comment => comment :: collected
    | none => block (line :: collected) above

/-- The comment lines right above a declaration; the lines above are given
nearest first, and those collected stand in reading order. -/
def commentLines (skipped : List String) (collected : List (List Char)) :
    List (List Char) → List (List Char)
  | [] => collected
  | raw :: above =>
    let line := Text.trim raw
    if line.isEmpty then commentLines skipped collected above
    else if collected.isEmpty && skipped.any (fun word => Text.startsWith line word.toList) then
      commentLines skipped collected above
    else if Text.startsWith line ['/', '/'] then commentLines skipped (line :: collected) above
    else if Text.endsWith line ['*', '/'] then
      if Text.startsWith line ['/', '*'] then line :: collected
      else if Text.contains line ['/', '*'] then collected
      else block (line :: collected) above
    else collected

/-- A text without the first of some words that it starts with. -/
def dropOpening : List String → List Char → List Char
  | [], line => line
  | word :: words, line => (Text.dropLead? word.toList line).getD (dropOpening words line)

/-- A comment line without the marks of the comment. -/
def unmark (line : List Char) : List Char :=
  let line := dropOpening ["/**", "/*!", "/*", "///", "//!", "//"] (Text.trim line)
  let line := Text.trim ((Text.dropTrail? ['*', '/'] line).getD line)
  match line with
  | '*' :: rest => if rest.head? = some '/' then line else Text.trim rest
  | _ => line

/-- The documentation of the declaration on a line. -/
def find (lines : List (List Char)) (line : Nat) (skipped : List String) : List Char :=
  let above := (lines.take (line - 1)).reverse
  Text.trim (Text.join ['\n'] ((commentLines skipped [] above).map unmark))

end Docstring
end Outline
