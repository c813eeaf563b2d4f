import Outline.Pattern.Basic

/-!
Searching a text for a pattern, from left to right.

A search tries every place in turn and takes the match at the first place that
has one; the next match starts at or after the end of the last.  The patterns
searched for match at least one character.
-/

namespace Outline

/-- A match: all of it, and the parts that the pattern marks. -/
structure Match where
  whole : Capture
  parts : List (Part × Capture)
  deriving DecidableEq, Repr

namespace Match

def start (found : Match) : Nat := found.whole.start

def stop (found : Match) : Nat := found.whole.stop

/-- What the last passage through a part matched. -/
def part? (found : Match) (label : Part) : Option Capture := found.parts.lookup label

/-- The text of a part, and nothing when the match went without it. -/
def text (found : Match) (label : Part) : List Char :=
  ((found.part? label).map (·.text)).getD []

end Match

namespace Cursor

/-- A place as seen from itself, where offsets count from. -/
def asOrigin (cursor : Cursor) : Cursor := { cursor with offset := 0 }

/-- The stretch from a place to an offset after it, both counted from `base`. -/
def capture (cursor : Cursor) (base stop : Nat) : Capture :=
  ⟨base + cursor.offset, (Text.takeWidth? (stop - cursor.offset) cursor.rest).getD []⟩

end Cursor

namespace Pattern

/-- The match that starts at a place.  Offsets are counted from there while it is
looked for, so that the sets of them stay small. -/
def matchAt (pattern : Pattern) (cursor : Cursor) : Option Match :=
  (pattern.ends [.start cursor.asOrigin]).head?.map fun stop =>
    ⟨cursor.asOrigin.capture cursor.offset stop.cursor.offset,
      stop.marks.map fun mark => (mark.label, mark.start.capture cursor.offset mark.stop)⟩

/-- The first match at or after a place. -/
def findFrom (pattern : Pattern) : Option Char → Nat → List Char → Option Match
  | previous, offset, [] => pattern.matchAt ⟨previous, offset, []⟩
  | previous, offset, c :: rest =>
    match pattern.matchAt ⟨previous, offset, c :: rest⟩ with
    | some found => some found
    | none => findFrom pattern (some c) (offset + c.utf8Size) rest

/-- The first match in a text. -/
def find? (pattern : Pattern) (text : List Char) : Option Match :=
  pattern.findFrom none 0 text

/-- The matches at or after a place that start at or after `resume`. -/
def findAllFrom (pattern : Pattern) : Nat → Option Char → Nat → List Char → List Match
  | resume, previous, offset, rest =>
    let here := if resume ≤ offset then pattern.matchAt ⟨previous, offset, rest⟩ else none
    let resume := (here.map Match.stop).getD resume
    match rest with
    | [] => here.toList
    | c :: rest => here.toList ++ findAllFrom pattern resume (some c) (offset + c.utf8Size) rest

/-- The matches in a text, from left to right, none overlapping another. -/
def findAll (pattern : Pattern) (text : List Char) : List Match :=
  pattern.findAllFrom 0 none 0 text

/-- Replace the matches from a place on; what comes before `resume` belongs to
a match that is already replaced. -/
def replaceFrom (pattern : Pattern) (filler : List Char) :
    Nat → Option Char → Nat → List Char → List Char
  | _, _, _, [] => []
  | resume, previous, offset, c :: rest =>
    let offset' := offset + c.utf8Size
    if offset < resume then replaceFrom pattern filler resume (some c) offset' rest
    else
      match pattern.matchAt ⟨previous, offset, c :: rest⟩ with
      | some found => filler ++ replaceFrom pattern filler found.stop (some c) offset' rest
      | none => c :: replaceFrom pattern filler resume (some c) offset' rest

/-- A text with every match of a pattern replaced. -/
def replaceAll (pattern : Pattern) (filler text : List Char) : List Char :=
  pattern.replaceFrom filler 0 none 0 text

end Pattern
end Outline
