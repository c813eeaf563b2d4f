import Outline.Declaration.Parameter
import Outline.Text.Line

/-!
Hints that are found line by line in a text without comments and literals:
parentheses that do not pair up, and statements that seem to miss their
terminator.
-/

namespace Outline

/-- How a language's lines are told apart. -/
structure LineRules where
  /-- First words of lines that are no plain statements. -/
  blockKeywords : List String
  /-- Beginnings of lines that are no plain statements. -/
  skipped : List String
  /-- Whether a line of one word in capitals is an invocation of its own. -/
  capitalLines : Bool
  deriving DecidableEq, Repr

/-- The hints for one text. -/
structure LineHints where
  errors : List Diagnostic
  warnings : List Diagnostic
  deriving DecidableEq, Repr

namespace LineCheck

def unbalancedCode : String := "UNBALANCED_PARENS"

def missingCode : String := "MISSING_TERMINATOR"

def unexpectedClose (line column : Nat) : Diagnostic :=
  ⟨"unexpected ')' without matching '('", line, column, .error, some unbalancedCode⟩

def unclosedOpen (line column : Nat) : Diagnostic :=
  ⟨"unclosed '(' before end of statement", line, column, .error, some unbalancedCode⟩

def missingTerminator (line column : Nat) : Diagnostic :=
  ⟨"statement may be missing a terminating ';'", line, column, .warning, some missingCode⟩

/-- The parentheses of a line up to some column: how many are open counting
earlier lines, the columns of those open on this line, the nearest first, and
the columns of those that close nothing. -/
structure Parens where
  depth : Nat
  opened : List Nat
  unexpected : List Nat
  deriving DecidableEq, Repr

/-- Read the rest of a line, which starts at a column. -/
def Parens.read (parens : Parens) (column : Nat) : List Char → Parens
  | [] => parens
  | c :: rest =>
    let parens :=
      if c = '(' then ⟨parens.depth + 1, column :: parens.opened, parens.unexpected⟩
      else if c = ')' then
        match parens.depth with
        | 0 => ⟨0, parens.opened.tail, parens.unexpected ++ [column]⟩
        | depth + 1 => ⟨depth, parens.opened.tail, parens.unexpected⟩
      else parens
    parens.read (column + 1) rest

/-- The first word of a line. -/
def firstWord (line : List Char) : List Char :=
  line.takeWhile fun c => Text.isAlphanumeric c || c == '_'

/-- Whether a character can end a statement that lacks its terminator. -/
def endsOperand (c : Char) : Bool :=
  Text.isAlphanumeric c || c == '_' || c == '$' || c == ')' || c == ']' || c == '"' || c == '\''

/-- Beginnings of lines that go on with the line before. -/
def continuations : List String :=
  ["\x7b", ".", "->", ":", "?", "+", "-", "*", "/", "%", "&", "|", "^", "=", "<", ">", ",", ")",
    "throws", "extends", "implements", "permits", "[", "\""]

def startsWithAny (line : List Char) (words : List String) : Bool :=
  words.any fun word => Text.startsWith line word.toList

/-- Whether a line closes a block and then goes on as part of it, or not at
all. -/
def closesBlock (rules : LineRules) (line : List Char) : Bool :=
  line.head? == some '\x7d'
    && (let word := firstWord (Text.trimStart (line.dropWhile (· == '\x7d')))
      word.isEmpty || oneOfWords rules.blockKeywords word)

/-- Whether a trimmed line is a statement that seems to miss its terminator,
from the line and the trimmed lines after it. -/
def looksUnterminated (rules : LineRules) (line : List Char) (rest : List (List Char)) : Bool :=
  let singleToken := !line.any Text.isBlank
  if !line.getLast?.any endsOperand then false
  else if startsWithAny line rules.skipped then false
  else if oneOfWords rules.blockKeywords (firstWord line) then false
  else if closesBlock rules line then false
  else if rules.capitalLines && singleToken
      && line.all (fun c => c.isUpper || c.isDigit || c == '_') then false
  else
    match rest.find? (!·.isEmpty) with
    | none => true
    | some next =>
      !(startsWithAny next continuations || (next.head? == some '\x7d' && singleToken))

/-- The hints for the lines from a number on, with `depth` parentheses open. -/
def checkFrom (rules : LineRules) : Nat → Nat → List (List Char) → LineHints
  | _, _, [] => ⟨[], []⟩
  | number, depth, line :: rest =>
    let parens := Parens.read ⟨depth, [], []⟩ 0 line
    let trimmed := Text.trim line
    let unclosed := Text.endsWith trimmed [';'] && depth == 0 && 0 < parens.depth
    let after := if unclosed then 0 else parens.depth
    let missing :=
      depth == 0 && after == 0 && looksUnterminated rules trimmed (rest.map Text.trim)
    let hints := checkFrom rules (number + 1) after rest
    { errors :=
        parens.unexpected.map (fun column => unexpectedClose number (column + 1))
          ++ (if unclosed then [unclosedOpen number (parens.opened.getLast?.getD 0 + 1)] else [])
          ++ hints.errors
      warnings :=
        (if missing then
          [missingTerminator number ((line.takeWhile Text.isBlank).length + 1)] else [])
          ++ hints.warnings }

/-- The hints for a text. -/
def check (rules : LineRules) (text : List Char) : LineHints :=
  checkFrom rules 1 0 (Text.lines text)

end LineCheck
end Outline
