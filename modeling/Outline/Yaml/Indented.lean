import Outline.Yaml.Gap

/-!
Scalars that are set apart by indentation, literal and folded.

A header tells what becomes of the line breaks at the end, and may tell the
indentation; else the scalar is indented like its first line that is not empty.
In a folded scalar a single line break counts as a space where neither of the
two lines starts with a blank.
-/

namespace Outline
namespace Yaml

/-- What becomes of the line breaks at the end: all are dropped, the first is
kept, or all are kept. -/
inductive Chomping
  | strip
  | clip
  | keep
  deriving DecidableEq, Repr

/-! ## Headers -/

def readChomping : List Char → Option Chomping × List Char
  | '-' :: rest => (some .strip, rest)
  | '+' :: rest => (some .keep, rest)
  | text => (none, text)

/-- The digit of an indentation, which is not zero. -/
def readIndentation : List Char → Option (Option Nat × List Char)
  | [] => some (none, [])
  | c :: rest =>
    if c = '0' then none
    else if c.isDigit then some (some (c.toNat - '0'.toNat), rest)
    else some (none, c :: rest)

/-- The two parts of a header, in either order. -/
def readHeader (text : List Char) : Option (Chomping × Option Nat × List Char) :=
  match readChomping text with
  | (some chomping, rest) => do
    let (indentation, rest) ← readIndentation rest
    some (chomping, indentation, rest)
  | (none, rest) => do
    let (indentation, rest) ← readIndentation rest
    match indentation with
    | none => some (.clip, none, rest)
    | some _ =>
      let (chomping, rest) := readChomping rest
      some (chomping.getD .clip, indentation, rest)

/-! ## Lines -/

/-- Whether a column is left of an indentation, which may not be known yet. -/
def isLeftOf (column : Nat) (indent : Option Nat) : Bool :=
  match indent with
  | some indent => column < indent
  | none => true

/-- What stands before a line that is not empty: the line breaks, and the
greatest column that their lines and this one reach by spaces. -/
structure Margin where
  breaks : List Char
  widest : Nat
  cursor : Cursor
  deriving Repr

/-- Read the empty lines and the indentation before a line, given what of them
has been read.  No tab may stand in the indentation. -/
def readMarginFrom (indent : Option Nat) (breaks : List Char) (widest line column : Nat) :
    List Char → Option Margin
  | [] => some ⟨breaks, widest, ⟨[], line, column⟩⟩
  | c :: rest =>
    if isBreak c then readMarginFrom indent (breaks ++ [c]) widest (line + 1) 0 rest
    else if isLeftOf column indent && c == '\t' then none
    else if isLeftOf column indent && c == ' ' then
      readMarginFrom indent breaks (max widest (column + 1)) line (column + 1) rest
    else some ⟨breaks, widest, ⟨c :: rest, line, column⟩⟩

def readMargin (indent : Option Nat) (cursor : Cursor) : Option Margin :=
  readMarginFrom indent [] cursor.column cursor.line cursor.column cursor.rest

/-- What stands before the next line of a scalar: the break of the last line,
whether that line starts with a blank, and the breaks of empty lines. -/
structure Seam where
  lineBreak : List Char
  afterBlank : Bool
  empties : List Char
  deriving Repr

/-- What a seam stands for before a line that starts with a blank, or does
not. -/
def Seam.joined (seam : Seam) (folds beforeBlank : Bool) : List Char :=
  if folds && seam.lineBreak == ['\n'] && !seam.afterBlank && !beforeBlank then
    if seam.empties.isEmpty then [' '] else seam.empties
  else seam.lineBreak ++ seam.empties

/-- What a seam stands for at the end of a scalar. -/
def Seam.chomped (seam : Seam) : Chomping → List Char
  | .strip => []
  | .clip => seam.lineBreak
  | .keep => seam.lineBreak ++ seam.empties

/-- The lines of a scalar whose first character is in column `indent`. -/
def readLines (folds : Bool) (indent : Nat) (chomping : Chomping) :
    Nat → Seam → Cursor → Option (List Char × Cursor)
  | 0, _, _ => none
  | fuel + 1, seam, cursor =>
    match cursor.rest with
    | [] => some (seam.chomped chomping, cursor)
    | c :: _ =>
      if cursor.column ≠ indent then some (seam.chomped chomping, cursor)
      else do
        let line := cursor.rest.takeWhile fun c => !isBreak c
        let after := cursor.drop line.length
        let margin ← readMargin (some indent) after.dropBreak
        let next : Seam := ⟨(after.rest.take 1), isBlank c, margin.breaks⟩
        let (text, cursor) ← readLines folds indent chomping fuel next margin.cursor
        some (seam.joined folds (isBlank c) ++ line ++ text, cursor)

/-- A scalar after its indicator.  `least` is the least column where its lines
may start: that of a header counts from the column of the collection around the
scalar. -/
def readIndented (folds : Bool) (least : Nat) (cursor : Cursor) : Option (List Char × Cursor) := do
  let (chomping, indentation, rest) ← readHeader cursor.rest
  let rest ← lineEnd? rest
  let cursor := (cursor.along rest).dropBreak
  let margin ← readMargin (indentation.map (least - 1 + ·)) cursor
  let indent := (indentation.map (least - 1 + ·)).getD (max margin.widest (max least 1))
  readLines folds indent chomping (cursor.rest.length + 1) ⟨[], false, margin.breaks⟩ margin.cursor

end Yaml
end Outline
