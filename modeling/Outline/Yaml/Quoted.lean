import Outline.Json.Reader
import Outline.Yaml.Gap

/-!
Scalars in quotes.

In double quotes a backslash starts an escape; in single quotes a quote is
written twice.  A scalar must be closed before the document ends.
-/

namespace Outline
namespace Yaml

/-! ## Escapes -/

/-- The character of a one-letter escape. -/
def shortEscape? : Char → Option Char
  | '0' => some (Char.ofNat 0)
  | 'a' => some (Char.ofNat 7)
  | 'b' => some (Char.ofNat 8)
  | 't' | '\t' => some '\t'
  | 'n' => some '\n'
  | 'v' => some (Char.ofNat 11)
  | 'f' => some (Char.ofNat 12)
  | 'r' => some '\r'
  | 'e' => some (Char.ofNat 27)
  | ' ' => some ' '
  | '"' => some '"'
  | '/' => some '/'
  | '\\' => some '\\'
  | 'N' => some (Char.ofNat 0x85)
  | '_' => some (Char.ofNat 0xA0)
  | 'L' => some (Char.ofNat 0x2028)
  | 'P' => some (Char.ofNat 0x2029)
  | _ => none

/-- How many hexadecimal digits follow the letter of a code escape. -/
def codeDigits? : Char → Option Nat
  | 'x' => some 2
  | 'u' => some 4
  | 'U' => some 8
  | _ => none

/-- A number of so many hexadecimal digits. -/
def readHex : Nat → Nat → List Char → Option (Nat × List Char)
  | 0, value, rest => some (value, rest)
  | _ + 1, _, [] => none
  | n + 1, value, c :: rest =>
    (Json.hexValue? c).bind fun digit => readHex n (value * 16 + digit) rest

/-- The character of an escape, after its backslash. -/
def readEscape : List Char → Option (Char × List Char)
  | [] => none
  | c :: rest =>
    match codeDigits? c with
    | some digits => do
      let (code, rest) ← readHex digits 0 rest
      if code.isValidChar then some (Char.ofNat code, rest) else none
    | none => (shortEscape? c).map fun c => (c, rest)

/-! ## Scalars -/

/-- A gap inside of quotes, after which the document must go on. -/
def readQuotedGap (cursor : Cursor) : Option (Gap × Cursor) := do
  let (gap, cursor) ← Gap.read 0 cursor
  if cursor.atDocumentMark then none else some (gap, cursor)

/-- The rest of a scalar in double quotes, after the opening one. -/
def readDouble : Nat → Cursor → Option (List Char × Cursor)
  | 0, _ => none
  | fuel + 1, cursor =>
    match cursor.rest with
    | [] => none
    | '"' :: _ => some ([], cursor.drop 1)
    | '\\' :: rest => do
      if rest.head?.any isBreak then
        let (gap, cursor) ← readQuotedGap (cursor.drop 1)
        let (text, cursor) ← readDouble fuel cursor
        some (gap.joined ++ text, cursor)
      else
        let (c, rest) ← readEscape rest
        let (text, cursor) ← readDouble fuel (cursor.along rest)
        some (c :: text, cursor)
    | c :: rest => do
      if startsBlank (c :: rest) then
        let (gap, cursor) ← readQuotedGap cursor
        let (text, cursor) ← readDouble fuel cursor
        some (gap.folded ++ text, cursor)
      else
        let (text, cursor) ← readDouble fuel (cursor.drop 1)
        some (c :: text, cursor)

/-- The rest of a scalar in single quotes, after the opening one. -/
def readSingle : Nat → Cursor → Option (List Char × Cursor)
  | 0, _ => none
  | fuel + 1, cursor =>
    match cursor.rest with
    | [] => none
    | '\'' :: '\'' :: _ => do
      let (text, cursor) ← readSingle fuel (cursor.drop 2)
      some ('\'' :: text, cursor)
    | '\'' :: _ => some ([], cursor.drop 1)
    | c :: rest => do
      if startsBlank (c :: rest) then
        let (gap, cursor) ← readQuotedGap cursor
        let (text, cursor) ← readSingle fuel cursor
        some (gap.folded ++ text, cursor)
      else
        let (text, cursor) ← readSingle fuel (cursor.drop 1)
        some (c :: text, cursor)

end Yaml
end Outline
