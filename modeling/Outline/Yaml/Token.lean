import Outline.Json.Reader
import Outline.Text.Utf8
import Outline.Yaml.Cursor

/-!
The tokens of YAML texts, and the reading of those that name something:
anchors, tags and directives.

A tag is a handle and the rest of a name; what the handle stands for is said by
directives.  The rest of the name is a sequence of bytes, for it may hold
escaped ones.
-/

namespace Outline
namespace Yaml

/-- How a scalar is written. -/
inductive Style
  | plain
  | quoted
  | literal
  | folded
  deriving DecidableEq, Repr

inductive Token
  /-- The version of the language, which a document may name. -/
  | version (major minor : Nat)
  /-- What a handle of tags stands for. -/
  | handle (name : List Char) (meaning : List UInt8)
  | documentStart
  | documentEnd
  | sequenceStart
  | mappingStart
  /-- The end of a collection by indentation. -/
  | blockEnd
  | bracketOpen
  | bracketClose
  | braceOpen
  | braceClose
  /-- A hyphen before an item. -/
  | item
  | comma
  | key
  | value
  | reference (name : List Char)
  | anchor (name : List Char)
  | tag (handle : List Char) (suffix : List UInt8)
  | scalar (style : Style) (text : List Char)
  deriving DecidableEq, Repr

/-! ## Anchors -/

/-- Whether a name may end here. -/
def endsName : List Char → Bool
  | c :: rest => startsBlank (c :: rest) || "?:,]\x7d%@".toList.contains c || c.toNat == 96
  | [] => true

/-- The name of an anchor, after its indicator. -/
def readName (text : List Char) : Option (List Char × List Char) :=
  let name := text.takeWhile isWord
  let rest := text.dropWhile isWord
  if name.isEmpty || !endsName rest then none else some (name, rest)

/-! ## Tags -/

/-- The tag of a standard type. -/
def tagOf (name : String) : List UInt8 := Utf8.encode ("tag:yaml.org,2002:" ++ name).toList

/-- The characters of a tag.  Marks of collections are among them only where
`marks` says so. -/
def isTagCharacter (marks : Bool) (c : Char) : Bool :=
  isWord c || ";/?:@&=+$.%!~*'()".toList.contains c || (marks && ",[]".toList.contains c)

/-- A byte that is written as a percent sign and two digits. -/
def readEscapedByte : List Char → Option (UInt8 × List Char)
  | '%' :: high :: low :: rest => do
    let high ← Json.hexValue? high
    let low ← Json.hexValue? low
    some ((high * 16 + low).toUInt8, rest)
  | _ => none

/-- How many bytes follow the first one of a character. -/
def continuations? (byte : UInt8) : Option Nat :=
  if byte < 0x80 then some 0
  else if 0xC0 ≤ byte && byte < 0xE0 then some 1
  else if 0xE0 ≤ byte && byte < 0xF0 then some 2
  else if 0xF0 ≤ byte && byte < 0xF8 then some 3
  else none

def readContinuations : Nat → List Char → Option (List UInt8 × List Char)
  | 0, rest => some ([], rest)
  | n + 1, text => do
    let (byte, rest) ← readEscapedByte text
    if byte < 0x80 || 0xC0 ≤ byte then none
    else
      let (bytes, rest) ← readContinuations n rest
      some (byte :: bytes, rest)

/-- The bytes of a character that is written by escapes. -/
def readEscapedCharacter (text : List Char) : Option (List UInt8 × List Char) := do
  let (byte, rest) ← readEscapedByte text
  let (bytes, rest) ← readContinuations (← continuations? byte) rest
  some (byte :: bytes, rest)

/-- The characters of a tag that stand here, as bytes. -/
def readTagText (marks : Bool) : Nat → List Char → Option (List UInt8 × List Char)
  | 0, _ => none
  | fuel + 1, text =>
    match text with
    | [] => some ([], [])
    | c :: rest =>
      if c = '%' then do
        let (bytes, rest) ← readEscapedCharacter text
        let (more, rest) ← readTagText marks fuel rest
        some (bytes ++ more, rest)
      else if isTagCharacter marks c then do
        let (more, rest) ← readTagText marks fuel rest
        some (Utf8.encode [c] ++ more, rest)
      else some ([], text)

/-- The characters of a tag, of which there is at least one. -/
def readTagSuffix (marks : Bool) (text : List Char) : Option (List UInt8 × List Char) := do
  let (bytes, rest) ← readTagText marks (text.length + 1) text
  if bytes.isEmpty then none else some (bytes, rest)

/-- A tag without the check of what follows: in angle brackets it stands for
itself, after a handle for what the handle says, and else for a local name.  An
exclamation mark alone is a tag of its own. -/
def readTagHere : List Char → Option (Token × List Char)
  | '!' :: '<' :: text => do
    let (bytes, rest) ← readTagSuffix true text
    match rest with
    | '>' :: rest => some (.tag [] bytes, rest)
    | _ => none
  | '!' :: text =>
    let name := text.takeWhile isWord
    match text.dropWhile isWord with
    | '!' :: rest => do
      let (bytes, rest) ← readTagSuffix false rest
      some (.tag ('!' :: name ++ ['!']) bytes, rest)
    | rest => do
      let (bytes, rest) ← readTagText false (rest.length + 1) rest
      match Utf8.encode name ++ bytes with
      | [] => some (.tag [] (Utf8.encode ['!']), rest)
      | bytes => some (.tag ['!'] bytes, rest)
  | _ => none

/-- A tag, which a blank follows, or a comma in brackets. -/
def readTag (flow : Bool) (text : List Char) : Option (Token × List Char) := do
  let (token, rest) ← readTagHere text
  if startsBlank rest || (flow && rest.head? == some ',') then some (token, rest) else none

/-! ## Directives -/

/-- A number of at most nine digits. -/
def readVersionNumber (text : List Char) : Option (Nat × List Char) :=
  let digits := text.takeWhile Char.isDigit
  if digits.isEmpty || 9 < digits.length then none
  else
    some (digits.foldl (fun value c => value * 10 + (c.toNat - '0'.toNat)) 0,
      text.dropWhile Char.isDigit)

def readVersion (text : List Char) : Option (Token × List Char) := do
  let (major, rest) ← readVersionNumber (text.dropWhile isBlank)
  match rest with
  | '.' :: rest =>
    let (minor, rest) ← readVersionNumber rest
    some (.version major minor, rest)
  | _ => none

/-- A handle stands between exclamation marks, which may be one and the same. -/
def readHandle : List Char → Option (List Char × List Char)
  | '!' :: text =>
    let name := text.takeWhile isWord
    match text.dropWhile isWord with
    | '!' :: rest => some ('!' :: name ++ ['!'], rest)
    | rest => if name.isEmpty then some (['!'], rest) else none
  | _ => none

def readHandleMeaning (text : List Char) : Option (Token × List Char) := do
  let (name, rest) ← readHandle (text.dropWhile isBlank)
  if rest.head?.any isBlank then
    let (meaning, rest) ← readTagSuffix true (rest.dropWhile isBlank)
    if startsBlank rest then some (.handle name meaning, rest) else none
  else none

/-- A directive, after its indicator.  It takes the rest of its line. -/
def readDirective (text : List Char) : Option (Token × List Char) := do
  let name := text.takeWhile isWord
  let rest := text.dropWhile isWord
  if !startsBlank rest then none
  let (token, rest) ←
    if name = "YAML".toList then readVersion rest
    else if name = "TAG".toList then readHandleMeaning rest
    else none
  some (token, ← lineEnd? rest)

end Yaml
end Outline
