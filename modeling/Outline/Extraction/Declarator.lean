import Outline.Declaration.Parameter
import Outline.Extraction.Scan

/-!
Lists of declarators: the names that one declaration of fields declares.
-/

namespace Outline

/-- The pieces of a list with the offset where each starts. -/
def piecesWithOffsets (offset : Nat) : List (List Char) → List (Nat × List Char)
  | [] => []
  | piece :: rest => (offset, piece) :: piecesWithOffsets (offset + Text.width piece + 1) rest

/-- The fields that a list of declarators declares.  The list is read in the
masked view and each declarator in the view that keeps literals. -/
def Subject.declarators (subject : Subject) (leading : Pattern) (start : Nat) :
    Except ExtractError (List (Nat × List Char × Option (List Char))) := do
  let list ← subject.source.maskedPart start (Statement.endAt subject.masked start)
  let pieces ← (piecesWithOffsets start (splitTopLevel ',' list)).mapM fun (offset, piece) => do
    let text ← subject.source.strippedPart offset (offset + Text.width piece)
    let (declaration, defaultValue) := splitDefault text
    return ((leading.find? declaration).bind (·.part? .name)).map fun name =>
      (offset, name.text, defaultValue.map Text.normalizeSpace)
  return pieces.filterMap id

end Outline
