import Outline.Text.Property.Alphabetic
import Outline.Text.Property.Decimal
import Outline.Text.Property.Joining
import Outline.Text.Property.Numeric

/-!
Kinds of characters, by their Unicode properties.  Each test settles ASCII
first and looks into the tables only beyond it.
-/

namespace Outline
namespace Text

def inRanges (ranges : List (Nat × Nat)) (c : Char) : Bool :=
  ranges.any fun (low, high) => low ≤ c.toNat && c.toNat ≤ high

def isAscii (c : Char) : Bool := c.toNat < 128

/-- A letter or a number of any script. -/
def isAlphanumeric (c : Char) : Bool :=
  if isAscii c then c.isAlphanum
  else inRanges alphabeticRanges c || inRanges numericRanges c

/-- A decimal digit of any script. -/
def isDecimal (c : Char) : Bool :=
  if isAscii c then c.isDigit else inRanges decimalRanges c

/-- A character of a word: a letter, a decimal digit, a mark, connecting
punctuation such as the underscore, or a join control. -/
def isWordChar (c : Char) : Bool :=
  if isAscii c then c.isAlphanum || c == '_'
  else inRanges alphabeticRanges c || inRanges joiningRanges c || inRanges decimalRanges c

end Text
end Outline
