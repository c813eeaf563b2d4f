import Outline.Json.Value

/-!
Reading JSON text.

The readers take the text that is left and answer with what follows the value
they read, or `none` where the text is not JSON.  Every call of the recursive
ones reads at least one character, so the length of the text bounds them.
-/

namespace Outline
namespace Json

/-- The blanks that JSON allows between tokens. -/
def isGap (c : Char) : Bool := c == ' ' || c == '\t' || c == '\n' || c == '\r'

def skipGap (text : List Char) : List Char := text.dropWhile isGap

def hexValue? (c : Char) : Option Nat :=
  if c.isDigit then some (c.toNat - '0'.toNat)
  else if 'a' ≤ c ∧ c ≤ 'f' then some (c.toNat - 'a'.toNat + 10)
  else if 'A' ≤ c ∧ c ≤ 'F' then some (c.toNat - 'A'.toNat + 10)
  else none

/-- Four hexadecimal digits. -/
def readUnit : List Char → Option (Nat × List Char)
  | a :: b :: c :: d :: rest => do
    let a ← hexValue? a
    let b ← hexValue? b
    let c ← hexValue? c
    let d ← hexValue? d
    some (((a * 16 + b) * 16 + c) * 16 + d, rest)
  | _ => none

/-- The character named by `\u` escapes, after the first `\u`: one unit, or a
high and a low surrogate. -/
def readEscapedUnit (text : List Char) : Option (Char × List Char) := do
  let (unit, rest) ← readUnit text
  if unit < 0xD800 ∨ 0xE000 ≤ unit then some (Char.ofNat unit, rest)
  else if unit < 0xDC00 then
    match rest with
    | '\\' :: 'u' :: rest =>
      let (low, rest) ← readUnit rest
      if 0xDC00 ≤ low ∧ low < 0xE000 then
        some (Char.ofNat (0x10000 + (unit - 0xD800) * 0x400 + (low - 0xDC00)), rest)
      else none
    | _ => none
  else none

/-- The character after a backslash, for the escapes of one letter. -/
def shortEscape? : Char → Option Char
  | '"' => some '"'
  | '\\' => some '\\'
  | '/' => some '/'
  | 'b' => some (Char.ofNat 8)
  | 'f' => some (Char.ofNat 12)
  | 'n' => some '\n'
  | 'r' => some '\r'
  | 't' => some '\t'
  | _ => none

/-- The rest of a string after its opening quote, at most `fuel` characters of
it. -/
def readString : Nat → List Char → Option (List Char × List Char)
  | 0, _ => none
  | fuel + 1, text =>
    match text with
    | [] => none
    | '"' :: rest => some ([], rest)
    | '\\' :: 'u' :: rest => do
      let (c, rest) ← readEscapedUnit rest
      let (text, rest) ← readString fuel rest
      some (c :: text, rest)
    | '\\' :: e :: rest => do
      let c ← shortEscape? e
      let (text, rest) ← readString fuel rest
      some (c :: text, rest)
    | c :: rest => do
      if c.toNat < 32 ∨ c = '\\' then none
      else
        let (text, rest) ← readString fuel rest
        some (c :: text, rest)

def natOfDigits (digits : List Char) : Nat :=
  digits.foldl (fun n c => n * 10 + (c.toNat - '0'.toNat)) 0

/-- The characters a number is written with. -/
def isNumberChar (c : Char) : Bool :=
  c.isDigit || c == '-' || c == '+' || c == '.' || c == 'e' || c == 'E'

/-- Drop one or more digits. -/
def dropDigits? (text : List Char) : Option (List Char) :=
  match text with
  | c :: _ => if c.isDigit then some (text.dropWhile Char.isDigit) else none
  | [] => none

/-- Drop an exponent, if there is one. -/
def dropExponent? : List Char → Option (List Char)
  | 'e' :: '+' :: rest | 'e' :: '-' :: rest | 'E' :: '+' :: rest | 'E' :: '-' :: rest
  | 'e' :: rest | 'E' :: rest => dropDigits? rest
  | rest => some rest

/-- Whether a text is a JSON number: a sign, digits without a leading zero, a
fraction and an exponent, all but the digits optional. -/
def isNumber (text : List Char) : Bool :=
  let digits :=
    match text with
    | '-' :: rest => rest
    | _ => text
  let afterInteger :=
    match digits with
    | '0' :: rest => some rest
    | _ => dropDigits? digits
  let afterFraction := afterInteger.bind fun rest =>
    match rest with
    | '.' :: rest => dropDigits? rest
    | _ => some rest
  (afterFraction.bind dropExponent?) == some []

def readNumber (text : List Char) : Option (Json × List Char) :=
  let written := text.takeWhile isNumberChar
  let rest := text.dropWhile isNumberChar
  if isNumber written then
    if written.all Char.isDigit then some (.natural (natOfDigits written), rest)
    else some (.decimal (String.ofList written), rest)
  else none

/-- The rest of the text after a word that must come next. -/
def expect? : List Char → List Char → Option (List Char)
  | [], text => some text
  | w :: word, c :: rest => if w = c then expect? word rest else none
  | _ :: _, [] => none

mutual

def readValue : Nat → List Char → Option (Json × List Char)
  | 0, _ => none
  | fuel + 1, text =>
    match skipGap text with
    | [] => none
    | '"' :: rest =>
      (readString (rest.length + 1) rest).map fun (s, rest) => (.string (String.ofList s), rest)
    | '[' :: rest =>
      match skipGap rest with
      | ']' :: rest => some (.array [], rest)
      | rest => (readItems fuel rest).map fun (items, rest) => (.array items, rest)
    | '\x7b' :: rest =>
      match skipGap rest with
      | '\x7d' :: rest => some (.object [], rest)
      | rest => (readFields fuel rest).map fun (fields, rest) => (.object fields, rest)
    | 'n' :: rest => (expect? ['u', 'l', 'l'] rest).map fun rest => (.null, rest)
    | 't' :: rest => (expect? ['r', 'u', 'e'] rest).map fun rest => (.bool true, rest)
    | 'f' :: rest => (expect? ['a', 'l', 's', 'e'] rest).map fun rest => (.bool false, rest)
    | rest => readNumber rest

/-- The items of a list and its closing bracket. -/
def readItems : Nat → List Char → Option (List Json × List Char)
  | 0, _ => none
  | fuel + 1, text => do
    let (item, rest) ← readValue fuel text
    match skipGap rest with
    | ']' :: rest => some ([item], rest)
    | ',' :: rest =>
      let (items, rest) ← readItems fuel rest
      some (item :: items, rest)
    | _ => none

/-- The fields of an object and its closing brace. -/
def readFields : Nat → List Char → Option (List (String × Json) × List Char)
  | 0, _ => none
  | fuel + 1, text => do
    let rest ← expect? ['"'] (skipGap text)
    let (name, rest) ← readString (rest.length + 1) rest
    let rest ← expect? [':'] (skipGap rest)
    let (value, rest) ← readValue fuel rest
    match skipGap rest with
    | '\x7d' :: rest => some ([(String.ofList name, value)], rest)
    | ',' :: rest =>
      let (fields, rest) ← readFields fuel rest
      some ((String.ofList name, value) :: fields, rest)
    | _ => none

end

/-- The value a text holds, with nothing but blanks around it. -/
def parse? (text : List Char) : Option Json :=
  match readValue (text.length + 1) text with
  | some (value, rest) => if (skipGap rest).isEmpty then some value else none
  | none => none

end Json
end Outline
