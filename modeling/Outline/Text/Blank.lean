import Outline.Text.Offset

/-!
Blank characters: the Unicode set that separates words, and the smaller ASCII
set that separates tokens.
-/

namespace Outline
namespace Text

/-- The Unicode property White_Space. -/
def isBlank (c : Char) : Bool :=
  let n := c.toNat
  (9 ≤ n && n ≤ 13) || n == 32 || n == 0x85 || n == 0xA0 || n == 0x1680
    || (0x2000 ≤ n && n ≤ 0x200A) || n == 0x2028 || n == 0x2029 || n == 0x202F || n == 0x205F
    || n == 0x3000

/-- Space, tab, line feed, form feed and carriage return; the vertical tab is
not among them. -/
def isAsciiBlank (c : Char) : Bool :=
  c == ' ' || c == '\t' || c == '\n' || c == '\r' || c.toNat == 12

/-- ASCII blanks are blanks. -/
theorem isBlank_of_isAsciiBlank {c : Char} (h : isAsciiBlank c = true) : isBlank c = true := by
  simp only [isAsciiBlank, Bool.or_eq_true, beq_iff_eq] at h
  rcases h with (((rfl | rfl) | rfl) | rfl) | h
  · rfl
  · rfl
  · rfl
  · rfl
  · simp [isBlank, h]

def trimStart (text : List Char) : List Char := text.dropWhile isBlank

def trimEnd (text : List Char) : List Char := (text.reverse.dropWhile isBlank).reverse

/-- A text without the blanks at its two ends. -/
def trim (text : List Char) : List Char := trimEnd (trimStart text)

/-- The words of a text, given the part of a word already read. -/
def wordsFrom : List Char → List Char → List (List Char)
  | word, [] => if word.isEmpty then [] else [word.reverse]
  | word, c :: rest =>
    if isBlank c then
      if word.isEmpty then wordsFrom [] rest else word.reverse :: wordsFrom [] rest
    else wordsFrom (c :: word) rest

/-- The maximal runs of characters that are not blank. -/
def words (text : List Char) : List (List Char) := wordsFrom [] text

/-- A text with each run of blanks replaced by one space and none at its ends.
Its words are those of the text, and it is a fixed point of the operation. -/
def normalizeSpace (text : List Char) : List Char := join [' '] (words text)

/-- The offset of the first character at or after `start` that is not an ASCII
blank, and the width of the text when there is none.  An offset inside a
character stays where it is: no byte of a wide character is blank. -/
def skipBlanks (text : List Char) (start : Nat) : Nat :=
  match dropWidth? start text with
  | some rest => start + width (rest.takeWhile isAsciiBlank)
  | none => min start (width text)

end Text
end Outline
