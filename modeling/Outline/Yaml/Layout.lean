import Outline.Yaml.Indented
import Outline.Yaml.Plain
import Outline.Yaml.Quoted
import Outline.Yaml.Token

/-!
The layout of YAML texts: how a text falls into tokens.

Which collections begin and end by indentation is seen from the columns of
their parts, and told by tokens of its own.  A key is recognised only by the
colon after it, so wherever a key may stand, its place is remembered: a colon
that comes in the same line, not too far behind, puts the token of a key there.
-/

namespace Outline
namespace Yaml

/-- A place where a key may have started: how many tokens are before it, the
line and the column, and whether nothing but a key can stand there. -/
structure PossibleKey where
  position : Nat
  line : Nat
  column : Nat
  required : Bool
  deriving DecidableEq, Repr

/-- How many characters a key and the blanks after it may have. -/
def keyWidth : Nat := 1024

/-- Whether the colon of a key would come too late. -/
def PossibleKey.isStale (key : PossibleKey) (cursor : Cursor) : Bool :=
  key.line < cursor.line || key.column + keyWidth < cursor.column

structure Layout where
  cursor : Cursor
  /-- The tokens so far, the last one first. -/
  tokens : List Token
  /-- The columns of the open collections by indentation, the innermost
  first. -/
  columns : List Nat
  /-- The possible keys, one for each open bracket and one outside of them, the
  innermost first. -/
  keys : List (Option PossibleKey)
  /-- Whether a key may start here. -/
  allowsKey : Bool
  deriving Repr

namespace Layout

def start (text : List Char) : Layout := ⟨.start text, [], [], [none], true⟩

/-- Whether a bracket is open. -/
def inBrackets (layout : Layout) : Bool := 1 < layout.keys.length

/-- The least column of what is inside of the innermost collection by
indentation. -/
def least (layout : Layout) : Nat :=
  match layout.columns with
  | [] => 0
  | column :: _ => column + 1

def push (layout : Layout) (token : Token) : Layout :=
  { layout with tokens := token :: layout.tokens }

/-- Put a token before those that came after the first `position` ones. -/
def insert (layout : Layout) (position : Nat) (token : Token) : Layout :=
  let later := layout.tokens.length - position
  { layout with tokens := layout.tokens.take later ++ token :: layout.tokens.drop later }

/-- Add a token of so many characters. -/
def take (layout : Layout) (count : Nat) (token : Token) : Layout :=
  { layout.push token with cursor := layout.cursor.drop count }

/-! ## Blanks -/

/-- Skip blanks, line breaks and comments.  Outside of brackets a key may start
after each line break, and where a key may start, a tab is no blank.  A mark of
the byte order may open a line. -/
def skipFrom (flow comment allowsKey : Bool) (line column : Nat) : List Char → Bool × Cursor
  | [] => (allowsKey, ⟨[], line, column⟩)
  | c :: rest =>
    if isBreak c then skipFrom flow false (allowsKey || !flow) (line + 1) 0 rest
    else if comment || c == ' ' || (c == '\t' && (flow || !allowsKey))
        || (isOrderMark c && column == 0) then
      skipFrom flow comment allowsKey line (column + 1) rest
    else if c == '#' then skipFrom flow true allowsKey line (column + 1) rest
    else (allowsKey, ⟨c :: rest, line, column⟩)

def skip (layout : Layout) : Layout :=
  let (allowsKey, cursor) :=
    skipFrom layout.inBrackets false layout.allowsKey layout.cursor.line layout.cursor.column
      layout.cursor.rest
  { layout with cursor, allowsKey }

/-! ## Collections by indentation -/

/-- End the collections whose column is at least `least`. -/
def closeFrom (least : Nat) (layout : Layout) : List Nat → Layout
  | [] => { layout with columns := [] }
  | column :: outer =>
    if least ≤ column then closeFrom least (layout.push .blockEnd) outer
    else { layout with columns := column :: outer }

/-- Brackets keep collections open. -/
def close (layout : Layout) (least : Nat) : Layout :=
  if layout.inBrackets then layout else closeFrom least layout layout.columns

/-- Start a collection in a column further to the right, with its token at a
position. -/
def openAt (layout : Layout) (column position : Nat) (token : Token) : Layout :=
  if layout.inBrackets || column < layout.least then layout
  else { layout.insert position token with columns := column :: layout.columns }

def openHere (layout : Layout) (token : Token) : Layout :=
  layout.openAt layout.cursor.column layout.tokens.length token

/-! ## Keys -/

/-- Give up a possible key. -/
def refute : Option PossibleKey → Option (Option PossibleKey)
  | none => some none
  | some key => if key.required then none else some none

/-- Give up the innermost possible key. -/
def dropKey (layout : Layout) : Option Layout :=
  match layout.keys with
  | [] => some layout
  | key :: outer => (refute key).map fun key => { layout with keys := key :: outer }

/-- Give up the possible keys whose colon would come too late. -/
def dropStaleKeys (layout : Layout) : Option Layout := do
  let keys ← layout.keys.mapM fun key =>
    if key.any (PossibleKey.isStale · layout.cursor) then refute key else some key
  some { layout with keys }

/-- Remember that a key may start here. -/
def noteKey (layout : Layout) : Option Layout :=
  if layout.allowsKey then do
    let layout ← layout.dropKey
    let required := !layout.inBrackets && layout.least == layout.cursor.column + 1
    let key : PossibleKey :=
      ⟨layout.tokens.length, layout.cursor.line, layout.cursor.column, required⟩
    some { layout with keys := some key :: layout.keys.tail }
  else some layout

/-! ## Tokens -/

def readDirective (layout : Layout) : Option Layout := do
  let layout ← (layout.close 0).dropKey
  let (token, rest) ← Yaml.readDirective (layout.cursor.rest.drop 1)
  some { layout.push token with cursor := (layout.cursor.along rest).dropBreak, allowsKey := false }

def readDocumentMark (layout : Layout) : Option Layout := do
  let layout ← (layout.close 0).dropKey
  let token := if layout.cursor.rest.head? = some '-' then .documentStart else .documentEnd
  some { layout.take 3 token with allowsKey := false }

def openBracket (layout : Layout) (token : Token) : Option Layout := do
  let layout ← layout.noteKey
  some { layout.take 1 token with keys := none :: layout.keys, allowsKey := true }

def closeBracket (layout : Layout) (token : Token) : Option Layout := do
  let layout ← layout.dropKey
  let keys := if layout.inBrackets then layout.keys.tail else layout.keys
  some { layout.take 1 token with keys, allowsKey := false }

def readComma (layout : Layout) : Option Layout := do
  let layout ← layout.dropKey
  some { layout.take 1 .comma with allowsKey := true }

/-- Start a collection here, which is allowed where a key is.  Brackets need no
start. -/
def startHere (layout : Layout) (token : Token) : Option Layout :=
  if layout.inBrackets then some layout
  else if layout.allowsKey then some (layout.openHere token)
  else none

def readItem (layout : Layout) : Option Layout := do
  let layout ← (← layout.startHere .sequenceStart).dropKey
  some { layout.take 1 .item with allowsKey := true }

def readKey (layout : Layout) : Option Layout := do
  let layout ← (← layout.startHere .mappingStart).dropKey
  some { layout.take 1 .key with allowsKey := !layout.inBrackets }

def readValue (layout : Layout) : Option Layout :=
  match layout.keys with
  | some key :: outer =>
    let layout := layout.insert key.position .key
    let layout := layout.openAt key.column key.position .mappingStart
    some { layout.take 1 .value with keys := none :: outer, allowsKey := false }
  | _ => do
    let layout ← layout.startHere .mappingStart
    some { layout.take 1 .value with allowsKey := !layout.inBrackets }

def readAnchor (layout : Layout) (token : List Char → Token) : Option Layout := do
  let layout ← layout.noteKey
  let (name, rest) ← readName (layout.cursor.rest.drop 1)
  some { layout.push (token name) with cursor := layout.cursor.along rest, allowsKey := false }

def readTag (layout : Layout) : Option Layout := do
  let layout ← layout.noteKey
  let (token, rest) ← Yaml.readTag layout.inBrackets layout.cursor.rest
  some { layout.push token with cursor := layout.cursor.along rest, allowsKey := false }

def readQuoted (layout : Layout)
    (read : Nat → Cursor → Option (List Char × Cursor)) : Option Layout := do
  let layout ← layout.noteKey
  let (text, cursor) ← read layout.cursor.rest.length (layout.cursor.drop 1)
  some { layout.push (.scalar .quoted text) with cursor, allowsKey := false }

def readIndented (layout : Layout) (style : Style) : Option Layout := do
  let layout ← layout.dropKey
  let (text, cursor) ←
    Yaml.readIndented (style == .folded) layout.least (layout.cursor.drop 1)
  some { layout.push (.scalar style text) with cursor, allowsKey := true }

/-- After a plain scalar a key may start where a line does. -/
def readPlain (layout : Layout) : Option Layout := do
  let layout ← layout.noteKey
  let plain ← Yaml.readPlain layout.inBrackets layout.least layout.cursor
  some { layout.push (.scalar .plain plain.text) with
    cursor := plain.cursor, allowsKey := plain.endsLine }

/-- The token that starts here. -/
def readToken (layout : Layout) : Option Layout :=
  let cursor := layout.cursor
  let flow := layout.inBrackets
  if cursor.column == 0 && cursor.rest.head? == some '%' then layout.readDirective
  else if cursor.atDocumentMark then layout.readDocumentMark
  else
    match cursor.rest with
    | '[' :: _ => layout.openBracket .bracketOpen
    | '\x7b' :: _ => layout.openBracket .braceOpen
    | ']' :: _ => layout.closeBracket .bracketClose
    | '\x7d' :: _ => layout.closeBracket .braceClose
    | ',' :: _ => layout.readComma
    | '*' :: _ => layout.readAnchor .reference
    | '&' :: _ => layout.readAnchor .anchor
    | '!' :: _ => layout.readTag
    | '"' :: _ => layout.readQuoted readDouble
    | '\'' :: _ => layout.readQuoted readSingle
    | c :: rest =>
      if c == '-' && startsBlank rest then layout.readItem
      else if c == '?' && (flow || startsBlank rest) then layout.readKey
      else if c == ':' && (flow || startsBlank rest) then layout.readValue
      else if c == '|' && !flow then layout.readIndented .literal
      else if c == '>' && !flow then layout.readIndented .folded
      else if startsPlain flow cursor.rest then layout.readPlain
      else none
    | [] => none

/-! ## Texts -/

/-- The tokens of the rest of a text.  Each round reads at least one
character. -/
def readTokens : Nat → Layout → Option (List Token)
  | 0, _ => none
  | fuel + 1, layout => do
    let layout ← layout.skip.dropStaleKeys
    if layout.cursor.rest.isEmpty then
      let layout ← (layout.close 0).dropKey
      some layout.tokens.reverse
    else
      let layout ← (layout.close (layout.cursor.column + 1)).readToken
      readTokens fuel layout

end Layout

/-- The tokens of a text. -/
def tokens? (text : List Char) : Option (List Token) :=
  if text.all isAllowed then
    let text := unifyBreaks text
    Layout.readTokens (text.length + 1) (.start text)
  else none

end Yaml
end Outline
