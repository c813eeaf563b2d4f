import Outline.Text.Offset

/-!
Lines: cutting a text into lines, and finding the line and column of an offset.

Lines and columns count from one, and columns count characters.  Two readings
of a line live side by side.  `lines` is what a reader sees, without
terminators and without an empty line after a final line feed; `LineIndex` is
positional, and every line feed starts a line in it.
-/

namespace Outline
namespace Text

/-- A line without the carriage return that belongs to its terminator. -/
def chopReturn (line : List Char) : List Char := (dropTrail? ['\r'] line).getD line

/-- The lines of a text, given the part of the current line already read.  A
carriage return is dropped only in front of a line feed. -/
def linesFrom : List Char → List Char → List (List Char)
  | line, [] => if line.isEmpty then [] else [line.reverse]
  | line, c :: rest =>
    if c = '\n' then chopReturn line.reverse :: linesFrom [] rest else linesFrom (c :: line) rest

/-- The lines of a text, without their terminators. -/
def lines (text : List Char) : List (List Char) := linesFrom [] text

/-- The offsets just after the line feeds of a text that starts at `offset`. -/
def startsAfterFeeds : Nat → List Char → List Nat
  | _, [] => []
  | offset, c :: rest =>
    if c = '\n' then (offset + 1) :: startsAfterFeeds (offset + 1) rest
    else startsAfterFeeds (offset + c.utf8Size) rest

end Text

/-- Where the lines of a text start, in increasing order, and how wide the text
is. -/
structure LineIndex where
  starts : List Nat
  width : Nat
  deriving DecidableEq, Repr

namespace LineIndex

def ofText (text : List Char) : LineIndex :=
  { starts := 0 :: Text.startsAfterFeeds 0 text, width := Text.width text }

/-- The line an offset lies on: the number of lines that start at or before it.
Offsets past the end belong to the last line. -/
def lineOf (index : LineIndex) (offset : Nat) : Nat :=
  index.starts.countP (· ≤ min offset index.width)

/-- The offset where a line starts.  Line zero is read as line one, and a line
past the last one starts at the end of the text. -/
def lineStart (index : LineIndex) (line : Nat) : Nat :=
  (index.starts[line - 1]?).getD index.width

/-- The column of an offset on its line.  Inside a character there is no count
of characters before the offset, and bytes are counted instead. -/
def columnOf (index : LineIndex) (text : List Char) (offset : Nat) : Nat :=
  let stop := min offset index.width
  let start := index.lineStart (index.lineOf stop)
  match Text.slice? text start stop with
  | some before => before.length + 1
  | none => stop - start + 1

def lineCount (index : LineIndex) : Nat := index.starts.length

end LineIndex
end Outline
