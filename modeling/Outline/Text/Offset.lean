/-!
Texts are lists of characters, and positions in them are UTF-8 byte offsets.

An offset names a place only when it falls between two characters; every
operation here that takes an offset answers `none` for one that does not, so a
slice is never cut through a character.
-/

namespace Outline
namespace Text

/-- The number of UTF-8 bytes of a text. -/
def width : List Char → Nat
  | [] => 0
  | c :: rest => c.utf8Size + width rest

@[simp] theorem width_nil : width [] = 0 := rfl

@[simp] theorem width_cons (c : Char) (rest : List Char) :
    width (c :: rest) = c.utf8Size + width rest := rfl

theorem width_append (a b : List Char) : width (a ++ b) = width a + width b := by
  induction a with
  | nil => simp
  | cons c rest ih => simp [ih, Nat.add_assoc]

/-- The part of a text after its first `n` bytes. -/
def dropWidth? : Nat → List Char → Option (List Char)
  | 0, text => some text
  | _ + 1, [] => none
  | n + 1, c :: rest => if c.utf8Size ≤ n + 1 then dropWidth? (n + 1 - c.utf8Size) rest else none

/-- The first `n` bytes of a text. -/
def takeWidth? : Nat → List Char → Option (List Char)
  | 0, _ => some []
  | _ + 1, [] => none
  | n + 1, c :: rest =>
    if c.utf8Size ≤ n + 1 then (takeWidth? (n + 1 - c.utf8Size) rest).map (c :: ·) else none

/-- The text between two offsets; the end must not come before the start. -/
def slice? (text : List Char) (start stop : Nat) : Option (List Char) :=
  if start ≤ stop then (dropWidth? start text).bind (takeWidth? (stop - start)) else none

/-- The character that starts at an offset. -/
def charAt? (text : List Char) (offset : Nat) : Option Char :=
  (dropWidth? offset text).bind List.head?

/-- The text from an offset on, and nothing when no character starts there. -/
def suffixAt (text : List Char) (offset : Nat) : List Char :=
  (dropWidth? offset text).getD []

/-- The text before an offset, and all of it when the offset is past the end. -/
def before (text : List Char) (offset : Nat) : List Char :=
  (takeWidth? offset text).getD text

/-- Where the first occurrence of one of `marks` starts, counted in bytes. -/
def find? (marks : List Char) : List Char → Option Nat
  | [] => none
  | c :: rest => if marks.contains c then some 0 else (find? marks rest).map (c.utf8Size + ·)

/-- What is left after a leading word, when the text starts with it. -/
def dropLead? : List Char → List Char → Option (List Char)
  | [], text => some text
  | _ :: _, [] => none
  | w :: word, c :: rest => if w = c then dropLead? word rest else none

/-- Whether a text starts with a word. -/
def startsWith (text word : List Char) : Bool := (dropLead? word text).isSome

/-- What is left before a trailing word, when the text ends with it. -/
def dropTrail? (word text : List Char) : Option (List Char) :=
  (dropLead? word.reverse text.reverse).map List.reverse

/-- Whether a text ends with a word. -/
def endsWith (text word : List Char) : Bool := (dropTrail? word text).isSome

/-- Whether a word occurs in a text. -/
def contains (text word : List Char) : Bool :=
  match text with
  | [] => word.isEmpty
  | c :: rest => startsWith (c :: rest) word || contains rest word

/-- A text from the first occurrence of a word on. -/
def fromWord? (word : List Char) : List Char → Option (List Char)
  | [] => if word.isEmpty then some [] else none
  | c :: rest => if startsWith (c :: rest) word then some (c :: rest) else fromWord? word rest

/-- What stands before and after the last occurrence of a word, which is not
empty. -/
def cutLast? (word : List Char) : List Char → Option (List Char × List Char)
  | [] => none
  | c :: rest =>
    match cutLast? word rest with
    | some (before, after) => some (c :: before, after)
    | none => (dropLead? word (c :: rest)).map fun after => ([], after)

/-- A text without the copies of a word it starts with, at most `fuel` of them. -/
def dropLeads (word : List Char) : Nat → List Char → List Char
  | 0, text => text
  | fuel + 1, text =>
    match dropLead? word text with
    | some rest => dropLeads word fuel rest
    | none => text

/-- A text without the copies of a word it ends with. -/
def dropTrails (word text : List Char) : List Char :=
  (dropLeads word.reverse text.length text.reverse).reverse

/-- How often a word occurs in a text, read from left to right without overlap;
`pending` characters still belong to the last occurrence. -/
def countFrom (word : List Char) : Nat → List Char → Nat
  | _, [] => 0
  | pending + 1, _ :: rest => countFrom word pending rest
  | 0, c :: rest =>
    if startsWith (c :: rest) word then countFrom word (word.length - 1) rest + 1
    else countFrom word 0 rest

def count (word text : List Char) : Nat := countFrom word 0 text

/-- The pieces between the occurrences of a separating character. -/
def splitAt (sep : Char) : List Char → List (List Char)
  | [] => [[]]
  | c :: rest =>
    if c = sep then [] :: splitAt sep rest
    else
      match splitAt sep rest with
      | [] => [[c]]
      | piece :: pieces => (c :: piece) :: pieces

/-- The pieces of a list of texts with a word between each two of them. -/
def join (between : List Char) (pieces : List (List Char)) : List Char :=
  between.intercalate pieces

end Text
end Outline
