import Outline.Text.Offset

/-!
Styled text for terminals.

A styled text stands between the escape sequence that turns its style on and the
one that turns all styles off.  Where the text itself turns styles off, its
style is turned on again.
-/

namespace Outline

inductive Color
  | red
  | green
  | yellow
  | blue
  | magenta
  | cyan
  deriving DecidableEq, Repr

namespace Color

def code : Color → String
  | .red => "31"
  | .green => "32"
  | .yellow => "33"
  | .blue => "34"
  | .magenta => "35"
  | .cyan => "36"

end Color

structure Style where
  bold : Bool
  dimmed : Bool
  color : Option Color
  deriving DecidableEq, Repr

namespace Style

def plain : Style := ⟨false, false, none⟩

/-- The codes of a style, the color last. -/
def codes (style : Style) : List String :=
  (if style.bold then ["1"] else []) ++ (if style.dimmed then ["2"] else [])
    ++ (style.color.map Color.code).toList

/-- The escape sequence of codes. -/
def sequence (codes : List String) : List Char :=
  '\x1b' :: '[' :: (String.intercalate ";" codes).toList ++ ['m']

/-- The sequence that turns all styles off. -/
def reset : List Char := sequence ["0"]

/-- A text with a sequence after each reset in it; `pending` characters still
belong to a reset. -/
def reopen (start : List Char) : Nat → List Char → List Char
  | _, [] => []
  | 0, c :: rest =>
    if Text.startsWith (c :: rest) reset then c :: reopen start (reset.length - 1) rest
    else c :: reopen start 0 rest
  | 1, c :: rest => c :: start ++ reopen start 0 rest
  | n + 2, c :: rest => c :: reopen start (n + 1) rest

/-- A text in a style.  Without colors, or in the plain style, it stands as it
is. -/
def apply (colors : Bool) (style : Style) (text : String) : String :=
  if colors && style != plain then
    String.ofList (sequence style.codes ++ reopen (sequence style.codes) 0 text.toList ++ reset)
  else text

end Style
end Outline
