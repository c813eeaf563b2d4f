/-!
The characters of YAML texts, and places in them.

Texts are read with line breaks unified (`unifyBreaks`): a carriage return, with
or without a line feed, and a next-line character count as a line feed.  The
line and paragraph separators break lines too, but stay what they are.
-/

namespace Outline
namespace Yaml

/-! ## Characters -/

/-- Whether a character may stand in a text at all. -/
def isAllowed (c : Char) : Bool :=
  let n := c.toNat
  n == 9 || n == 10 || n == 13 || (0x20 ≤ n && n ≤ 0x7E) || n == 0x85
    || (0xA0 ≤ n && n ≤ 0xFFFD) || 0x10000 ≤ n

/-- A text with a line feed for each line break, separators apart. -/
def unifyBreaks : List Char → List Char
  | [] => []
  | '\r' :: '\n' :: rest => '\n' :: unifyBreaks rest
  | c :: rest => (if c = '\r' ∨ c.toNat = 0x85 then '\n' else c) :: unifyBreaks rest

def isBreak (c : Char) : Bool := c == '\n' || c.toNat == 0x2028 || c.toNat == 0x2029

/-- A space or a tab. -/
def isBlank (c : Char) : Bool := c == ' ' || c == '\t'

/-- The mark that says in which order the bytes of a file stand. -/
def isOrderMark (c : Char) : Bool := c.toNat == 0xFEFF

/-- The characters of names. -/
def isWord (c : Char) : Bool := c.isAlphanum || c == '_' || c == '-'

/-- Whether a text is at its end or goes on with a blank or a line break. -/
def startsBlank : List Char → Bool
  | [] => true
  | c :: _ => isBlank c || isBreak c

/-- Whether a line starts with the mark that begins or ends a document. -/
def startsDocumentMark : List Char → Bool
  | a :: b :: c :: rest =>
    a == b && b == c && (a == '-' || a == '.') && startsBlank rest
  | _ => false

/-! ## Places -/

/-- The text that is left, and the line and the column where it starts, both
counted from zero. -/
structure Cursor where
  rest : List Char
  line : Nat
  column : Nat
  deriving DecidableEq, Repr

namespace Cursor

def start (text : List Char) : Cursor := ⟨text, 0, 0⟩

/-- The place in the same line where an end of the text starts. -/
def along (cursor : Cursor) (rest : List Char) : Cursor :=
  ⟨rest, cursor.line, cursor.column + (cursor.rest.length - rest.length)⟩

/-- The place after so many characters of the same line. -/
def drop (cursor : Cursor) (count : Nat) : Cursor :=
  ⟨cursor.rest.drop count, cursor.line, cursor.column + count⟩

/-- The place after the line break that stands here, if one does. -/
def dropBreak (cursor : Cursor) : Cursor :=
  match cursor.rest with
  | [] => cursor
  | c :: rest => if isBreak c then ⟨rest, cursor.line + 1, 0⟩ else cursor

/-- Whether the line that starts here begins or ends a document. -/
def atDocumentMark (cursor : Cursor) : Bool :=
  cursor.column == 0 && startsDocumentMark cursor.rest

end Cursor

/-- The end of a line after something: blanks and a comment.  Nothing else may
stand there. -/
def lineEnd? (text : List Char) : Option (List Char) :=
  match text.dropWhile isBlank with
  | [] => some []
  | c :: rest =>
    if c = '#' then some (rest.dropWhile fun c => !isBreak c)
    else if isBreak c then some (c :: rest)
    else none

end Yaml
end Outline
