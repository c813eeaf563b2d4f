import Outline.Yaml.Gap

/-!
Scalars without quotes.

A plain scalar ends before a colon that a blank follows, before a comment and
before a line that is indented too little; in brackets it also ends before the
characters that structure a collection.
-/

namespace Outline
namespace Yaml

/-- The characters that structure a collection in brackets. -/
def isFlowMark (c : Char) : Bool := c == ',' || c == '[' || c == ']' || c == '\x7b' || c == '\x7d'

/-- The characters that start something other than a plain scalar. -/
def isIndicator (c : Char) : Bool := "-?:,[]\x7b\x7d#&*!|>'\"%@".toList.contains c || c.toNat == 96

/-- Whether a plain scalar starts here; `flow` tells that it stands in brackets. -/
def startsPlain (flow : Bool) : List Char → Bool
  | [] => false
  | c :: rest =>
    !startsBlank [c]
      && (!isIndicator c || (c == '-' && !startsBlank rest)
        || (!flow && (c == '?' || c == ':') && !startsBlank rest))

/-- The characters up to the next blank or to what ends a plain scalar.  In
brackets a colon must not stand before a mark. -/
def plainWord (flow : Bool) : List Char → Option (List Char × List Char)
  | [] => some ([], [])
  | c :: rest =>
    if startsBlank [c] || (c == ':' && startsBlank rest) || (flow && isFlowMark c) then
      some ([], c :: rest)
    else if c == ':' && flow && rest.head?.any (fun c => isFlowMark c || c == '?') then none
    else (plainWord flow rest).map fun (word, rest) => (c :: word, rest)

/-- A plain scalar: its text, whether a line break follows it, and the place
after the blanks that follow it. -/
structure Plain where
  text : List Char
  endsLine : Bool
  cursor : Cursor
  deriving Repr

/-- The rest of a plain scalar after a gap.  Outside of brackets its lines start
at column `least` or to the right of it. -/
def readPlainFrom (flow : Bool) (least : Nat) : Nat → Gap → Cursor → Option Plain
  | 0, _, _ => none
  | fuel + 1, gap, cursor =>
    if cursor.atDocumentMark || cursor.rest.head? == some '#' then some ⟨[], gap.endsLine, cursor⟩
    else do
      let (word, rest) ← plainWord flow cursor.rest
      if word.isEmpty then some ⟨[], gap.endsLine, cursor⟩
      else
        let after := cursor.drop word.length
        if rest.isEmpty || !startsBlank rest then some ⟨gap.folded ++ word, false, after⟩
        else
          let (next, after) ← Gap.read least after
          if !flow && after.column < least then some ⟨gap.folded ++ word, next.endsLine, after⟩
          else
            let plain ← readPlainFrom flow least fuel next after
            some { plain with text := gap.folded ++ word ++ plain.text }

def readPlain (flow : Bool) (least : Nat) (cursor : Cursor) : Option Plain :=
  readPlainFrom flow least (cursor.rest.length + 1) Gap.none cursor

end Yaml
end Outline
