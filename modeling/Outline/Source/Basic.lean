import Outline.Source.Brace
import Outline.Source.Mask
import Outline.Text.Line

/-!
A source file prepared for recognition: its two masked views, its lines and
its braces, all sharing the offsets of the file.
-/

namespace Outline

/-- Why the extraction of one file fails. -/
inductive ExtractError
  /-- A part of a view was asked for whose ends are out of order, past the end
  or inside a character. -/
  | span (start stop width : Nat)
  | internal (reason : String)
  /-- The extractor gave up, possibly with a report. -/
  | crashed (report : Option String)
  deriving DecidableEq, Repr

namespace ExtractError

def message : ExtractError → String
  | .span start stop width => s!"span {start}..{stop} is out of bounds for text of length {width}"
  | .internal reason => "internal extractor error: " ++ reason
  | .crashed report => report.getD "extractor panicked"

end ExtractError

/-- A source text with its two views, and where its lines and braces are. -/
structure SourceText where
  text : List Char
  /-- Without comments; literals are intact. -/
  stripped : List Char
  /-- Without comments and without the contents of literals. -/
  masked : List Char
  index : LineIndex
  /-- The braces of the masked view. -/
  braces : BraceIndex
  /-- The lines of the text. -/
  lines : List (List Char)
  deriving Repr

namespace SourceText

def ofText (rules : MaskRules) (text : List Char) : SourceText :=
  let masked := Mask.masked rules text
  { text := text
    stripped := Mask.stripped rules text
    masked := masked
    index := LineIndex.ofText text
    braces := BraceIndex.ofText masked
    lines := Text.lines text }

def lineOf (source : SourceText) (offset : Nat) : Nat := source.index.lineOf offset

def columnOf (source : SourceText) (offset : Nat) : Nat :=
  source.index.columnOf source.text offset

/-- A part of a view, or the error that names the span. -/
def part (view : List Char) (start stop : Nat) : Except ExtractError (List Char) :=
  match Text.slice? view start stop with
  | some text => .ok text
  | none => .error (.span start stop (Text.width view))

/-- What a text is cut at when the offset is not between two of its characters. -/
def crash {α : Type} (offset : Nat) : Except ExtractError α :=
  .error (.crashed (some s!"byte index {offset} is not a char boundary"))

/-- A view before an offset. -/
def headTo (view : List Char) (stop : Nat) : Except ExtractError (List Char) :=
  match Text.takeWidth? stop view with
  | some text => .ok text
  | none => crash stop

/-- A view from an offset on. -/
def tailFrom (view : List Char) (start : Nat) : Except ExtractError (List Char) :=
  match Text.dropWidth? start view with
  | some text => .ok text
  | none => crash start

def maskedPart (source : SourceText) (start stop : Nat) : Except ExtractError (List Char) :=
  part source.masked start stop

def strippedPart (source : SourceText) (start stop : Nat) : Except ExtractError (List Char) :=
  part source.stripped start stop

end SourceText
end Outline
