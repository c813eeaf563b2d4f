import Outline.Yaml.Cursor

/-!
Blanks and line breaks inside of scalars, and what they stand for.

A line break folds: with the blanks around it, it counts as one space, and each
further break counts as itself.  A break that is a separator does not fold.
-/

namespace Outline
namespace Yaml

/-- What stands between two words of a scalar: the blanks before the first line
break, and the breaks.  Blanks after a break are not kept. -/
structure Gap where
  blanks : List Char
  breaks : List Char
  deriving DecidableEq, Repr

namespace Gap

def none : Gap := ⟨[], []⟩

/-- Read a gap, given what of it has been read.  After a line break, no tab may
stand to the left of column `least`. -/
def readFrom (least : Nat) (gap : Gap) (line column : Nat) :
    List Char → Option (Gap × Cursor)
  | [] => some (gap, ⟨[], line, column⟩)
  | c :: rest =>
    if isBreak c then
      readFrom least { gap with breaks := gap.breaks ++ [c] } (line + 1) 0 rest
    else if isBlank c then
      if gap.breaks.isEmpty then
        readFrom least { gap with blanks := gap.blanks ++ [c] } line (column + 1) rest
      else if c == '\t' && column < least then Option.none
      else readFrom least gap line (column + 1) rest
    else some (gap, ⟨c :: rest, line, column⟩)

def read (least : Nat) (cursor : Cursor) : Option (Gap × Cursor) :=
  readFrom least none cursor.line cursor.column cursor.rest

/-- Whether the line ends in a gap. -/
def endsLine (gap : Gap) : Bool := !gap.breaks.isEmpty

/-- What a gap stands for. -/
def folded (gap : Gap) : List Char :=
  match gap.breaks with
  | [] => gap.blanks
  | '\n' :: [] => [' ']
  | '\n' :: more => more
  | breaks => breaks

/-- What a gap stands for whose first line break is escaped, so that it does not
count. -/
def joined (gap : Gap) : List Char := gap.breaks.tail

end Gap
end Yaml
end Outline
