import Outline.Text.Offset

/-!
Suggested names for the tests of a declaration.

The names are spelled from the declaration's name, reduced to ASCII letters,
digits and underscores, and from the words of each case worth testing.
-/

namespace Outline

/-- How the words of a test name are joined. -/
inductive TestStyle
  /-- `testGetNameSuccess` -/
  | camel
  /-- `test_getName_success` -/
  | snake
  deriving DecidableEq, Repr

inductive AccessorKind
  | getter
  | setter
  | predicate
  deriving DecidableEq, Repr

namespace TestName

/-- Whether a name goes on in such a way that the word before is its first one. -/
def startsWord : List Char → Bool
  | [] => true
  | c :: _ => c.isUpper || c.isDigit || c == '_'

/-- The kind of accessor a name announces by its first word. -/
def accessorKind? (name : List Char) : Option AccessorKind :=
  [("get", AccessorKind.getter), ("set", .setter), ("is", .predicate), ("has", .predicate)].findSome?
    fun (word, kind) =>
      match Text.dropLead? word.toList name with
      | some rest => if startsWord rest then some kind else none
      | none => none

def isPlain (c : Char) : Bool := c.isAlphanum || c == '_'

/-- Replace each run of characters that are not plain by an underscore, unless
one stands there already. -/
def plainFrom : Option Char → List Char → List Char
  | _, [] => []
  | last, c :: rest =>
    if isPlain c then c :: plainFrom (some c) rest
    else if last = some '_' then plainFrom last rest
    else '_' :: plainFrom (some '_') rest

def trimUnderscores (name : List Char) : List Char :=
  ((name.dropWhile (· == '_')).reverse.dropWhile (· == '_')).reverse

/-- Reduce the name of any declaration, an operator or a destructor among them,
to part of an identifier. -/
def sanitize (name : List Char) : List Char :=
  let name := trimUnderscores (plainFrom none name)
  if name.isEmpty then ['a', 'n', 'o', 'n', 'y', 'm', 'o', 'u', 's'] else name

/-- The cases worth testing, in words. -/
def cases (name : List Char) (parameters : Nat) : List (List String) :=
  [["success"]]
    ++ (if 0 < parameters then [["invalid", "parameters"], ["null", "parameters"]] else [])
    ++ match accessorKind? name with
      | some .getter => [["returns", "expected", "value"]]
      | some .setter => [["updates", "value"]]
      | some .predicate =>
        [["returns", "true", "when", "condition", "met"],
          ["returns", "false", "when", "condition", "not", "met"]]
      | none => []

def capitalize : List Char → List Char
  | [] => []
  | c :: rest => c.toUpper :: rest

def spell (style : TestStyle) (name : List Char) (words : List String) : List Char :=
  let words := words.map String.toList
  match style with
  | .camel => "test".toList ++ capitalize name ++ words.flatMap capitalize
  | .snake => "test_".toList ++ name ++ ['_'] ++ Text.join ['_'] words

/-- The test names for a declaration with a number of parameters. -/
def candidates (style : TestStyle) (name : List Char) (parameters : Nat) : List String :=
  let name := sanitize name
  (cases name parameters).map fun words => String.ofList (spell style name words)

end TestName
end Outline
