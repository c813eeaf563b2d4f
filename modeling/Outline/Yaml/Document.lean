import Outline.Yaml.Layout
import Outline.Yaml.Node

/-!
Documents of YAML texts: how tokens form values.

Every anchor gets as its number how many names are known before it, so a name
that is used twice stands for its last value so far.  A handle of tags must be
known, and stands for what the directives of the document say.
-/

namespace Outline
namespace Yaml

/-- The tokens that are left, what the handles of tags stand for, and the
numbers of the names of anchors. -/
structure Reading where
  tokens : List Token
  handles : List (List Char × List UInt8)
  names : List (List Char × Nat)

abbrev Reader := StateT Reading Option

namespace Reader

def peek : Reader (Option Token) := do return (← get).tokens.head?

def skip : Reader Unit := modify fun reading => { reading with tokens := reading.tokens.tail }

/-- Whether one of these tokens comes next. -/
def isNext (tokens : List Token) : Reader Bool := do
  return (← peek).any tokens.contains

/-- Skip a token if it comes next, and tell whether it does. -/
def skipIf (token : Token) : Reader Bool := do
  if ← isNext [token] then
    skip
    return true
  return false

/-- Skip a token that must come next. -/
def expect (token : Token) : Reader Unit := do
  unless ← skipIf token do failure

/-- The number of a name, which must be known. -/
def numberOf (name : List Char) : Reader Nat := do
  match (← get).names.lookup name with
  | some number => return number
  | none => failure

/-- Give a name to the value that starts here. -/
def nameHere (name : List Char) : Reader Nat := do
  let reading ← get
  let number := reading.names.length
  set { reading with names := (name, number) :: reading.names.filter (·.1 != name) }
  return number

/-- A tag in full. -/
def fullTag (handle : List Char) (suffix : List UInt8) : Reader (List UInt8) := do
  if handle.isEmpty then return suffix
  match (← get).handles.lookup handle with
  | some meaning => return meaning ++ suffix
  | none => failure

end Reader

open Reader

/-! ## Values -/

/-- What may stand before a value: the number of its anchor, and its tag. -/
structure Properties where
  number : Option Nat
  tag : Option (List UInt8)

def takeAnchor : Reader (Option (List Char)) := do
  match ← peek with
  | some (.anchor name) => skip; return some name
  | _ => return none

def takeTag : Reader (Option (List Char × List UInt8)) := do
  match ← peek with
  | some (.tag handle suffix) => skip; return some (handle, suffix)
  | _ => return none

/-- An anchor and a tag, in either order. -/
def readProperties : Reader Properties := do
  let first ← takeAnchor
  let tag ← takeTag
  let anchor ← if first.isSome then pure first else takeAnchor
  let tag ← tag.mapM fun (handle, suffix) => fullTag handle suffix
  return ⟨← anchor.mapM nameHere, tag⟩

mutual

/-- A value.  Inside of brackets there are no collections by indentation; as the
key or the value of a field, a list may start in the column of its map, without
a token of its own. -/
def readNode : Nat → Bool → Bool → Reader Node
  | 0, _, _ => failure
  | fuel + 1, block, aligned => do
    if let some (.reference name) ← peek then
      skip
      return .reference (← numberOf name)
    let ⟨number, tag⟩ ← readProperties
    match ← peek with
    | some (.scalar style text) => skip; return .scalar number style tag text
    | some .bracketOpen => skip; return .sequence number (← readBracketItems fuel true)
    | some .braceOpen => skip; return .mapping number (← readBraceFields fuel true)
    | token =>
      if aligned && token == some .item then
        return .sequence number (← readAlignedItems fuel)
      else if block && token == some .sequenceStart then
        skip
        return .sequence number (← readItems fuel)
      else if block && token == some .mappingStart then
        skip
        return .mapping number (← readFields fuel)
      else if number.isSome || tag.isSome then return .scalar number .plain tag []
      else failure

/-- A value that may be left out before one of these tokens. -/
def readNodeUnless : Nat → List Token → Bool → Bool → Reader Node
  | 0, _, _, _ => failure
  | fuel + 1, tokens, block, aligned => do
    if ← isNext tokens then return .missing
    readNode fuel block aligned

/-- The items of a list with a column of its own. -/
def readItems : Nat → Reader (List Node)
  | 0 => failure
  | fuel + 1 => do
    if ← skipIf .item then
      let item ← readNodeUnless fuel [.item, .blockEnd] true false
      return item :: (← readItems fuel)
    expect .blockEnd
    return []

/-- The items of a list in the column of its map. -/
def readAlignedItems : Nat → Reader (List Node)
  | 0 => failure
  | fuel + 1 => do
    if ← skipIf .item then
      let item ← readNodeUnless fuel [.item, .key, .value, .blockEnd] true false
      return item :: (← readAlignedItems fuel)
    return []

/-- The fields of a map by indentation. -/
def readFields : Nat → Reader (List (Node × Node))
  | 0 => failure
  | fuel + 1 => do
    if ← skipIf .key then
      let key ← readNodeUnless fuel [.key, .value, .blockEnd] true true
      let value ←
        if ← skipIf .value then readNodeUnless fuel [.key, .value, .blockEnd] true true
        else pure .missing
      return (key, value) :: (← readFields fuel)
    expect .blockEnd
    return []

/-- The items of a list in brackets, with a comma before each but the first. -/
def readBracketItems : Nat → Bool → Reader (List Node)
  | 0, _ => failure
  | fuel + 1, first => do
    if ← skipIf .bracketClose then return []
    unless first do expect .comma
    if ← skipIf .bracketClose then return []
    let item ← if ← skipIf .key then readPair fuel else readNode fuel false false
    return item :: (← readBracketItems fuel false)

/-- A map of one field as an item in brackets, after the token of its key.  The
token before which a key is left out is lost. -/
def readPair : Nat → Reader Node
  | 0 => failure
  | fuel + 1 => do
    let key ←
      if ← isNext [.value, .comma, .bracketClose] then
        skip
        pure .missing
      else readNode fuel false false
    let value ←
      if ← skipIf .value then readNodeUnless fuel [.comma, .bracketClose] false false
      else pure .missing
    return .mapping none [(key, value)]

/-- The fields of a map in braces, with a comma before each but the first.  A
value alone is the key of a field. -/
def readBraceFields : Nat → Bool → Reader (List (Node × Node))
  | 0, _ => failure
  | fuel + 1, first => do
    if ← skipIf .braceClose then return []
    unless first do expect .comma
    if ← skipIf .braceClose then return []
    if ← skipIf .key then
      let key ← readNodeUnless fuel [.value, .comma, .braceClose] false false
      let value ←
        if ← skipIf .value then readNodeUnless fuel [.comma, .braceClose] false false
        else pure .missing
      return (key, value) :: (← readBraceFields fuel false)
    let key ← readNode fuel false false
    return (key, .missing) :: (← readBraceFields fuel false)

end

/-! ## Documents -/

/-- The handles that are known without a directive. -/
def standardHandles : List (List Char × List UInt8) :=
  [("!".toList, Utf8.encode "!".toList), ("!!".toList, tagOf "")]

/-- The directives of a document: at most one version, which must be known, and
no handle twice.  The result tells whether there are any. -/
def readDirectives (named : Bool) : Nat → Reader Unit
  | 0 => failure
  | fuel + 1 => do
    match ← peek with
    | some (.version major minor) =>
      if named || major != 1 || (minor != 1 && minor != 2) then failure
      skip
      readDirectives true fuel
    | some (.handle name meaning) =>
      if ((← get).handles.lookup name).isSome then failure
      modify fun reading => { reading with handles := (name, meaning) :: reading.handles }
      skip
      readDirectives named fuel
    | _ =>
      modify fun reading => { reading with handles := reading.handles ++ standardHandles }

def isDirective : Token → Bool
  | .version _ _ | .handle _ _ => true
  | _ => false

/-- The value of the one document of a text.  A document that starts without a
mark has no directives, and one with a mark may be empty. -/
def readDocument (fuel : Nat) : Reader Node := do
  match ← peek with
  | none => return .missing
  | some token =>
    readDirectives false fuel
    if token == .documentStart || isDirective token then
      expect .documentStart
      match ← peek with
      | none | some .documentStart | some .documentEnd => return .missing
      | some next => if isDirective next then return .missing else readNode fuel true false
    else readNode fuel true false

/-- The value of a text that holds one document.  Marks of its end may follow,
but nothing else. -/
def parse? (text : List Char) : Option Node := do
  let tokens ← tokens? text
  let (node, reading) ← readDocument (4 * tokens.length + 4) ⟨tokens, [], []⟩
  if reading.tokens.all (· == .documentEnd) then some node else none

end Yaml
end Outline
