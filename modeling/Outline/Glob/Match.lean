import Outline.Glob.Basic
import Outline.Pattern.Basic
import Outline.Text.Utf8

/-!
Matching paths against glob patterns, byte by byte.

Tokens are matched by what they may leave of the bytes that follow.  A class
holds bytes: a character outside ASCII puts each of its bytes into the class,
and a range runs from the last byte of its low end to the first byte of its
high end.
-/

namespace Outline
namespace Glob

/-- Whether a byte lies in a range of characters. -/
def inRange (byte : UInt8) (range : Char × Char) : Bool :=
  let low := Utf8.encode [range.1]
  let high := Utf8.encode [range.2]
  if range.1 = range.2 then low.contains byte
  else
    low.dropLast.contains byte || high.tail.contains byte
      || (low.getLast?.getD 0 ≤ byte && byte ≤ high.head?.getD 0)

def slash : UInt8 := 47

/-- All the ends of a text, from the text itself to nothing. -/
def tails : List UInt8 → List (List UInt8)
  | [] => [[]]
  | byte :: rest => (byte :: rest) :: tails rest

/-- The ends of a text that follow a slash. -/
def afterSlashes : List UInt8 → List (List UInt8)
  | [] => []
  | byte :: rest => if byte = slash then rest :: afterSlashes rest else afterSlashes rest

/-- Ends of one text, each length once. -/
def distinctEndsFrom (seen : OffsetSet) : List (List UInt8) → List (List UInt8)
  | [] => []
  | rest :: ends =>
    if seen.has rest.length then distinctEndsFrom seen ends
    else rest :: distinctEndsFrom (seen.add rest.length) ends

def distinctEnds (ends : List (List UInt8)) : List (List UInt8) := distinctEndsFrom .empty ends

mutual

/-- Whether tokens stand for nothing at all: groups without a branch that
stands for something. -/
def isVacant : List Token → Bool
  | [] => true
  | .alternates branches :: rest => areVacant branches && isVacant rest
  | _ :: _ => false

def areVacant : List (List Token) → Bool
  | [] => true
  | branch :: rest => isVacant branch && areVacant rest

end

mutual

/-- What one token may leave of a text. -/
def leftBy : Token → List UInt8 → List (List UInt8)
  | .literal c, text =>
    if (Utf8.encode [c]).isPrefixOf text then [text.drop (Utf8.encode [c]).length] else []
  | .any, text =>
    match text with
    | [] => []
    | _ :: rest => [rest]
  | .star, text => tails text
  | .leadingDirectories, text => text :: afterSlashes text
  | .everythingBelow, text =>
    match text with
    | [] => []
    | byte :: rest => if byte = slash then tails rest else []
  | .innerDirectories, text =>
    match text with
    | [] => []
    | byte :: rest => if byte = slash then rest :: afterSlashes rest else []
  | .class negated ranges, text =>
    match text with
    | [] => []
    | byte :: rest => if ranges.any (inRange byte) != negated then [rest] else []
  | .alternates branches, text =>
    if areVacant branches then [text] else distinctEnds (leftByBranches branches text)

/-- What the branches of a group may leave of a text; a branch that stands for
nothing is left out. -/
def leftByBranches : List (List Token) → List UInt8 → List (List UInt8)
  | [], _ => []
  | branch :: rest, text =>
    (if isVacant branch then [] else leftByAll branch [text]) ++ leftByBranches rest text

/-- What tokens in a row may leave of texts.  All that one token may leave is
gathered before the next, so that no end of a text is met twice. -/
def leftByAll : List Token → List (List UInt8) → List (List UInt8)
  | [], texts => texts
  | token :: rest, texts => leftByAll rest (distinctEnds (texts.flatMap (leftBy token)))

end

/-- Whether a path as a whole matches tokens.  Two stars alone match every
path. -/
def isMatch (tokens : List Token) (path : List Char) : Bool :=
  match tokens with
  | [.leadingDirectories] => true
  | _ => (leftByAll tokens [Utf8.encode path]).any List.isEmpty

end Glob
end Outline
