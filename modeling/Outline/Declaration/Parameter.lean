import Outline.Entry.Basic
import Outline.Pattern.Search

/-!
Reading the declarations between a pair of parentheses.

A list is split where no group is open, and each piece into a type, a name and
a default.  The pieces of a split, with the separator put back between them,
are the text that was split.
-/

namespace Outline

/-- How a language writes parameters. -/
structure ParameterRules where
  /-- Leading words that belong to neither type nor name. -/
  modifiers : List String
  /-- Words that are types, never names. -/
  typeWords : List String
  /-- Whether declarations carry `@Name(...)` annotations. -/
  annotations : Bool
  /-- Whether `=` introduces a default. -/
  defaults : Bool
  deriving DecidableEq, Repr

/-- Whether a text is one of some words. -/
def oneOfWords (words : List String) (text : List Char) : Bool :=
  words.contains (String.ofList text)

/-! ## Splitting -/

/-- The groups open at a place of a list: how many more brackets were opened
than closed, how many angles are open, and the character before the place. -/
structure Nesting where
  depth : Int
  angles : Nat
  previous : Option Char
  deriving DecidableEq, Repr

namespace Nesting

def outside : Nesting := ⟨0, 0, none⟩

/-- Whether no group is open. -/
def isTop (nesting : Nesting) : Bool := nesting.depth == 0 && nesting.angles == 0

/-- Whether a character opens or closes a group here.  An angle closes only
where one is open and it is not the head of an arrow. -/
def isBracket (nesting : Nesting) (c : Char) : Bool :=
  c == '(' || c == '[' || c == '\x7b' || c == ')' || c == ']' || c == '\x7d' || c == '<'
    || (c == '>' && nesting.previous != some '-' && 0 < nesting.angles)

/-- The groups open after one more character. -/
def after (nesting : Nesting) (c : Char) : Nesting :=
  if c == '(' || c == '[' || c == '\x7b' then ⟨nesting.depth + 1, nesting.angles, some c⟩
  else if c == ')' || c == ']' || c == '\x7d' then ⟨nesting.depth - 1, nesting.angles, some c⟩
  else if c == '<' then ⟨nesting.depth, nesting.angles + 1, some c⟩
  else if nesting.isBracket c then ⟨nesting.depth, nesting.angles - 1, some c⟩
  else ⟨nesting.depth, nesting.angles, some c⟩

/-- Whether a character separates two pieces here. -/
def splits (nesting : Nesting) (separator c : Char) : Bool :=
  c == separator && nesting.isTop && !nesting.isBracket c

end Nesting

/-- The pieces of the rest of a list, the first of which begins with what has
been read of it. -/
def splitTopLevelFrom (separator : Char) : Nesting → List Char → List Char → List (List Char)
  | _, piece, [] => [piece.reverse]
  | nesting, piece, c :: rest =>
    if nesting.splits separator c then
      piece.reverse :: splitTopLevelFrom separator (nesting.after c) [] rest
    else splitTopLevelFrom separator (nesting.after c) (c :: piece) rest

/-- Split a text at the separators that stand outside of every group. -/
def splitTopLevel (separator : Char) (text : List Char) : List (List Char) :=
  splitTopLevelFrom separator .outside [] text

/-- Whether an equals sign stands alone between two characters, as no part of a
comparison. -/
def isAssignment (previous : Option Char) (rest : List Char) : Bool :=
  rest.head? != some '='
    && !(previous == some '=' || previous == some '<' || previous == some '>'
      || previous == some '!')

/-- Split the rest of a declaration at its first assignment outside of groups;
`before` has been read and is reversed. -/
def splitDefaultFrom : Int → List Char → List Char → List Char × Option (List Char)
  | _, before, [] => (Text.trim before.reverse, none)
  | depth, before, c :: rest =>
    if c == '(' || c == '[' || c == '\x7b' || c == '<' then
      splitDefaultFrom (depth + 1) (c :: before) rest
    else if c == ')' || c == ']' || c == '\x7d' || c == '>' then
      splitDefaultFrom (depth - 1) (c :: before) rest
    else if c == '=' && depth ≤ 0 && isAssignment before.head? rest then
      (Text.trim before.reverse, some (Text.trim rest))
    else splitDefaultFrom depth (c :: before) rest

/-- A declaration and its default. -/
def splitDefault (declaration : List Char) : List Char × Option (List Char) :=
  splitDefaultFrom 0 [] declaration

/-! ## Types and names -/

namespace Parameter

/-- An annotation with its arguments. -/
def annotation : Pattern :=
  .char (· == '@') ++ .run1 (fun c => Text.isWordChar c || c == '.')
    ++ .optional (.blanks ++ .lit "(" ++ .run0 (· != ')') ++ .lit ")")

/-- The name inside the parentheses of a function pointer. -/
def pointerName : Pattern :=
  .lit "(" ++ .blanks ++ .char (fun c => c == '*' || c == '&' || c == '^') ++ .blanks
    ++ .part .name .name ++ .blanks ++ .lit ")"

/-- The name that a declaration ends with. -/
def trailingName : Pattern := .part .name .dollarName ++ .blanks ++ .textEnd

/-- Take the array brackets off the end of a declaration, which is given and
answered in reverse; `suffix` holds those already taken.  Every round shortens
the declaration. -/
def takeArrays : Nat → List Char → List Char → List Char × List Char
  | fuel + 1, reversed@(']' :: _), suffix =>
    match reversed.dropWhile (· != '[') with
    | '[' :: before =>
      takeArrays fuel (before.dropWhile Text.isBlank)
        ('[' :: (reversed.takeWhile (· != '[')).reverse ++ suffix)
    | _ => (reversed, suffix)
  | _, reversed, suffix => (reversed, suffix)

/-- The words that qualify a type and may also stand for it. -/
def isQualifier (word : List Char) : Bool :=
  oneOfWords ["unsigned", "signed", "long", "short", "const", "volatile"] word

/-- Whether a declaration whose last name is `name` is all type: nothing before
the name that could be one, or the name belongs to the type. -/
def isTypeOnly (rules : ParameterRules) (before name : List Char) : Bool :=
  before.isEmpty || Text.endsWith before [':', ':']
    || (Text.endsWith before ['.'] && !Text.endsWith before ['.', '.', '.'])
    || oneOfWords rules.typeWords name
    || (Text.words before).all fun word => oneOfWords rules.typeWords word && isQualifier word

/-- The type and the name of a declaration; the name may be empty. -/
def typeAndName (rules : ParameterRules) (declaration : List Char) : List Char × List Char :=
  match (pointerName.find? declaration).bind (·.part? .name) with
  | some name =>
    (Text.normalizeSpace (Text.before declaration name.start ++ Text.suffixAt declaration name.stop),
      name.text)
  | none =>
    let reversed := (Text.trimEnd declaration).reverse
    let (reversed, arrays) := takeArrays reversed.length reversed []
    let core := reversed.reverse
    match (trailingName.find? core).bind (·.part? .name) with
    | none => (Text.normalizeSpace (core ++ arrays), [])
    | some name =>
      let before := Text.trimEnd (Text.before core name.start)
      if isTypeOnly rules before name.text then (Text.normalizeSpace (core ++ arrays), [])
      else (Text.normalizeSpace (before ++ arrays), name.text)

/-- Read one declaration; an empty one declares nothing. -/
def ofDeclaration? (rules : ParameterRules) (declaration : List Char) : Option Parameter :=
  let (declaration, defaultValue) :=
    if rules.defaults then splitDefault declaration else (Text.trim declaration, none)
  let bare :=
    if rules.annotations then annotation.replaceAll [' '] declaration else declaration
  let words := (Text.words bare).dropWhile (oneOfWords rules.modifiers)
  let declaration := Text.join [' '] words
  if declaration.isEmpty then none
  else if declaration = ['.', '.', '.'] then some ⟨"...", "...", true, none⟩
  else
    let (type, name) := typeAndName rules declaration
    if type.isEmpty && name.isEmpty then none
    else
      some ⟨String.ofList name, String.ofList type, defaultValue.isSome,
        defaultValue.map String.ofList⟩

/-- Read the text between the parentheses of a declaration. -/
def ofList (rules : ParameterRules) (text : List Char) : List Parameter :=
  let text := Text.trim text
  if text.isEmpty || text == ['v', 'o', 'i', 'd'] then []
  else (splitTopLevel ',' text).filterMap (ofDeclaration? rules)

end Parameter
end Outline
