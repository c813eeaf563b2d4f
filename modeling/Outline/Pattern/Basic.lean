import Outline.Text.Blank
import Outline.Text.Kind

/-!
Patterns: the shapes that recognizers look for in a text.

A pattern denotes, for places in a text, the places where a match from one of
them may end.  Both are listed best first: the ends from a place come before
those from the next one, an alternative before the next one, a greedy repetition
prefers more rounds and a lazy one fewer.  The match at a place is the first of
its ends.

No pattern can ask what a part of it matched, so what follows a place depends on
its offset alone, and of two ends at one offset only the better one is kept.
That bounds the ends of a pattern by the length of the text, however many places
they are looked for from.
-/

namespace Outline

/-- The parts of a match that recognizers ask for. -/
inductive Part
  | declaration
  | modifiers
  | kind
  | name
  | type
  | tail
  | mark
  | path
  deriving DecidableEq, Repr

/-- A place in a text: the character before it, its offset, and the text after
it. -/
structure Cursor where
  previous : Option Char
  offset : Nat
  rest : List Char
  deriving DecidableEq, Repr

namespace Cursor

def start (text : List Char) : Cursor := ⟨none, 0, text⟩

end Cursor

/-- A stretch of text and where it starts. -/
structure Capture where
  start : Nat
  text : List Char
  deriving DecidableEq, Repr

namespace Capture

def stop (capture : Capture) : Nat := capture.start + Text.width capture.text

end Capture

/-- A labelled stretch, from a place to an offset. -/
structure Mark where
  label : Part
  start : Cursor
  stop : Nat
  deriving DecidableEq, Repr

/-- A place that a match has reached: the parts it is inside of, the innermost
first, each with its start, and the parts it has passed, the latest first. -/
structure Reach where
  cursor : Cursor
  entered : List (Part × Cursor)
  marks : List Mark
  deriving DecidableEq, Repr

namespace Reach

def start (cursor : Cursor) : Reach := ⟨cursor, [], []⟩

def offset (reach : Reach) : Nat := reach.cursor.offset

def enter (label : Part) (reach : Reach) : Reach :=
  { reach with entered := (label, reach.cursor) :: reach.entered }

/-- Leave the innermost part, which ends here. -/
def leave (reach : Reach) : Reach :=
  match reach.entered with
  | [] => reach
  | (label, cursor) :: entered =>
    ⟨reach.cursor, entered, ⟨label, cursor, reach.offset⟩ :: reach.marks⟩

/-- The place after one character that passes a test. -/
def afterChar? (test : Char → Bool) (reach : Reach) : Option Reach :=
  match reach.cursor.rest with
  | [] => none
  | c :: rest =>
    if test c then some { reach with cursor := ⟨some c, reach.offset + c.utf8Size, rest⟩ } else none

/-- The place after a word. -/
def afterWord? (text : List Char) (reach : Reach) : Option Reach :=
  (Text.dropLead? text reach.cursor.rest).map fun rest =>
    { reach with cursor :=
        ⟨text.getLast?.or reach.cursor.previous, reach.offset + Text.width text, rest⟩ }

end Reach

/-- A set of offsets, one bit for each. -/
abbrev OffsetSet := Nat

namespace OffsetSet

def empty : OffsetSet := 0

def has (set : OffsetSet) (offset : Nat) : Bool := Nat.testBit set offset

def add (set : OffsetSet) (offset : Nat) : OffsetSet := set ||| 1 <<< offset

end OffsetSet

inductive Pattern
  /-- Nothing, anywhere. -/
  | empty
  /-- One character that passes a test. -/
  | char (test : Char → Bool)
  | word (text : List Char)
  | seq (first second : Pattern)
  | alt (first second : Pattern)
  | star (greedy : Bool) (body : Pattern)
  /-- Characters that pass a test: `star (char test)`, read in one sweep. -/
  | run (greedy : Bool) (test : Char → Bool)
  /-- The body, with the text it matched kept under a label. -/
  | part (label : Part) (body : Pattern)
  /-- Between a character of a word and one that is none. -/
  | boundary
  | lineStart
  | textStart
  | textEnd

namespace Pattern

instance : Append Pattern := ⟨seq⟩

instance : OrElse Pattern := ⟨fun first second => alt first (second ())⟩

/-- The ends whose offsets are neither in `seen` nor those of an earlier one. -/
def distinctFrom : OffsetSet → List Reach → List Reach
  | _, [] => []
  | seen, reach :: rest =>
    if seen.has reach.offset then distinctFrom seen rest
    else reach :: distinctFrom (seen.add reach.offset) rest

/-- Keep the first end of each offset. -/
def distinct (reaches : List Reach) : List Reach := distinctFrom .empty reaches

/-- The ends of a repetition found so far, worst first, and their offsets. -/
structure Found where
  reaches : List Reach
  offsets : OffsetSet
  deriving DecidableEq, Repr

namespace Found

def none : Found := ⟨[], .empty⟩

def has (found : Found) (reach : Reach) : Bool := found.offsets.has reach.offset

def add (found : Found) (reach : Reach) : Found :=
  ⟨reach :: found.reaches, found.offsets.add reach.offset⟩

/-- The ends, best first. -/
def toList (found : Found) : List Reach := found.reaches.reverse

end Found

/-- Add a place, and those reached from it by further rounds, to the ends found
before.  What was found before is better, and all that follows it was found with
it, so it ends the search; a round that reads nothing adds nothing, so there are
no more rounds than characters to read. -/
def rounds (greedy : Bool) (step : Reach → List Reach) : List Char → Found → Reach → Found
  | [], found, reach => if found.has reach then found else found.add reach
  | _ :: unread, found, reach =>
    if found.has reach then found
    else
      let further := (step reach).filter (reach.offset < ·.offset)
      if greedy then (further.foldl (rounds greedy step unread) found).add reach
      else further.foldl (rounds greedy step unread) (found.add reach)

/-- The places along a run of characters that pass a test, nearest first, up to
one that was found before. -/
def alongRun (test : Char → Bool) (found : Found) (reach : Reach) :
    Option Char → Nat → List Char → List Reach
  | previous, offset, rest =>
    if found.offsets.has offset then []
    else
      { reach with cursor := ⟨previous, offset, rest⟩ } ::
        match rest with
        | [] => []
        | c :: rest =>
          if test c then alongRun test found reach (some c) (offset + c.utf8Size) rest else []

/-- Add the ends of a run to those found before. -/
def addRun (greedy : Bool) (test : Char → Bool) (found : Found) (reach : Reach) : Found :=
  let along := alongRun test found reach reach.cursor.previous reach.offset reach.cursor.rest
  (if greedy then along.reverse else along).foldl Found.add found

/-- Whether exactly one side of a place is a character of a word. -/
def atBoundary (cursor : Cursor) : Bool :=
  cursor.previous.any Text.isWordChar != cursor.rest.head?.any Text.isWordChar

/-- The ends of the matches from places, best first. -/
def ends : Pattern → List Reach → List Reach
  | .empty, reaches => reaches
  | .char test, reaches => reaches.filterMap (Reach.afterChar? test)
  | .word text, reaches => reaches.filterMap (Reach.afterWord? text)
  | .seq first second, reaches => second.ends (first.ends reaches)
  | .alt first second, reaches =>
    distinct (reaches.flatMap fun reach => first.ends [reach] ++ second.ends [reach])
  | .star greedy body, reaches =>
    (reaches.foldl (fun found reach =>
      rounds greedy (fun reach => body.ends [reach]) reach.cursor.rest found reach) .none).toList
  | .run greedy test, reaches => (reaches.foldl (addRun greedy test) .none).toList
  | .part label body, reaches => (body.ends (reaches.map (Reach.enter label))).map Reach.leave
  | .boundary, reaches => reaches.filter fun reach => atBoundary reach.cursor
  | .lineStart, reaches => reaches.filter fun reach => reach.cursor.previous.all (· == '\n')
  | .textStart, reaches => reaches.filter fun reach => reach.cursor.previous.isNone
  | .textEnd, reaches => reaches.filter fun reach => reach.cursor.rest.isEmpty

/-! ## Building patterns -/

/-- A given word. -/
def lit (text : String) : Pattern := .word text.toList

def optional (body : Pattern) : Pattern := body <|> .empty

def many (body : Pattern) : Pattern := .star true body

/-- One or more characters that pass a test, as many as there are. -/
def run1 (test : Char → Bool) : Pattern := .char test ++ .run true test

/-- Any number of characters that pass a test, as many as there are. -/
def run0 (test : Char → Bool) : Pattern := .run true test

/-- Any number of characters that pass a test, as few as will do. -/
def few (test : Char → Bool) : Pattern := .run false test

def blanks : Pattern := run0 Text.isBlank

def blanks1 : Pattern := run1 Text.isBlank

/-- One of some words, the first one that lets the match go on. -/
def oneOf : List String → Pattern
  | [] => .char fun _ => false
  | [text] => lit text
  | text :: rest => lit text <|> oneOf rest

/-- An ASCII letter or an underscore. -/
def isNameStart (c : Char) : Bool := c.isAlpha || c == '_'

/-- A name that starts with an ASCII letter or an underscore. -/
def name : Pattern := .char isNameStart ++ run0 Text.isWordChar

/-- A name in which a dollar sign counts as a letter. -/
def dollarName : Pattern :=
  .char (fun c => isNameStart c || c == '$') ++ run0 fun c => Text.isWordChar c || c == '$'

end Pattern
end Outline
