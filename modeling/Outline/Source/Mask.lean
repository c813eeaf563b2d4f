import Outline.Text.Blank

/-!
Masking: the pass that hides comments and literals from the recognizers.

Every character of a source gets a shade.  Comments are blanked in both views
of the source, the contents of literals only in the masked view.  Blanking
writes one space per byte and keeps line feeds, so an offset means the same
place in the source and in its two views.

The pass is an automaton that reads one character at a time and looks ahead at
the rest of the text, so its state is the mode, whether only blanks have come
since the line began, and the character just read.
-/

namespace Outline

/-- Which lexical forms the masking pass knows besides comments, strings and
character literals. -/
structure MaskRules where
  /-- Strings between triple quotes, which may span lines. -/
  textBlocks : Bool
  /-- Strings with a delimiter of their own and no escapes: `R"x( ... )x"`. -/
  rawStrings : Bool
  /-- Lines that start with `#` are blanked, with their continuations. -/
  directives : Bool
  /-- An apostrophe between hexadecimal digits separates digits. -/
  digitSeparators : Bool
  deriving DecidableEq, Repr

namespace MaskRules

def java : MaskRules := ⟨true, false, false, false⟩

def cpp : MaskRules := ⟨false, true, true, true⟩

end MaskRules

namespace Mask

/-- How a character shows in the two views: in both, only in the view that
keeps literals, or in neither. -/
inductive Shade
  | plain
  | literal
  | comment
  deriving DecidableEq, Repr

/-- What the pass is inside of. -/
inductive Mode
  | code
  | lineComment
  | blockComment
  | directive
  | quoted (quote : Char)
  | textBlock
  | raw (close : List Char)
  /-- The next character follows a backslash. -/
  | escape (back : Mode)
  /-- The next `more + 1` characters complete a token that has been seen. -/
  | pass (more : Nat) (shade : Shade) (next : Mode)
  deriving DecidableEq, Repr

/-- Pass over `n` characters and go on in `next`. -/
def Mode.passing (n : Nat) (shade : Shade) (next : Mode) : Mode :=
  match n with
  | 0 => next
  | more + 1 => .pass more shade next

def isHexDigit (c : Char) : Bool :=
  c.isDigit || ('a' ≤ c && c ≤ 'f') || ('A' ≤ c && c ≤ 'F')

/-- Whether the character just read belongs to a name, so that an `R` after it
does not start a raw string. -/
def endsName : Option Char → Bool
  | some c => c.isAlphanum || c == '_'
  | none => false

/-- Whether an apostrophe after `previous` and before `rest` separates digits. -/
def separatesDigits (previous : Option Char) (rest : List Char) : Bool :=
  previous.any isHexDigit && rest.head?.any isHexDigit

/-- Whether only blanks have come since the line began, after one more
character. -/
def freshAfter (fresh : Bool) (c : Char) : Bool :=
  c == '\n' || (Text.isAsciiBlank c && fresh)

/-- The shade of one character, the mode after it, and whether the line is
still blank.  Characters that belong to a delimiter of two or more characters
leave the last of these as it was. -/
def step (rules : MaskRules) (mode : Mode) (fresh : Bool) (previous : Option Char) (c : Char)
    (rest : List Char) : Shade × Mode × Bool :=
  match mode with
  | .code =>
    if c = '/' ∧ rest.head? = some '/' then (.comment, .pass 0 .comment .lineComment, fresh)
    else if c = '/' ∧ rest.head? = some '*' then (.comment, .pass 0 .comment .blockComment, fresh)
    else if rules.directives ∧ fresh ∧ c = '#' then (.comment, .directive, fresh)
    else if rules.textBlocks ∧ c = '"' ∧ Text.startsWith rest ['"', '"'] then
      (.plain, .pass 1 .plain .textBlock, fresh)
    else if rules.rawStrings ∧ c = 'R' ∧ rest.head? = some '"' ∧ endsName previous = false
        ∧ '(' ∈ rest.tail then
      let delimiter := rest.tail.takeWhile (· != '(')
      (.plain, .pass (delimiter.length + 1) .plain (.raw (')' :: delimiter ++ ['"'])), fresh)
    else if c = '"' then (.plain, .quoted '"', freshAfter fresh c)
    else if c = '\'' ∧ ¬ (rules.digitSeparators ∧ separatesDigits previous rest) then
      (.plain, .quoted '\'', freshAfter fresh c)
    else (.plain, .code, freshAfter fresh c)
  | .lineComment =>
    if c = '\n' then (.plain, .code, true) else (.comment, .lineComment, freshAfter fresh c)
  | .blockComment =>
    if c = '*' ∧ rest.head? = some '/' then (.comment, .pass 0 .comment .code, fresh)
    else (.comment, .blockComment, freshAfter fresh c)
  | .directive =>
    if c = '\\' ∧ rest.head? = some '\n' then (.comment, .pass 0 .plain .directive, fresh)
    else if c = '\n' then (.plain, .code, true)
    else (.comment, .directive, freshAfter fresh c)
  | .quoted quote =>
    if c = '\\' then (.literal, .escape (.quoted quote), fresh)
    else if c = quote ∨ c = '\n' then (.plain, .code, freshAfter fresh c)
    else (.literal, .quoted quote, freshAfter fresh c)
  | .textBlock =>
    if c = '"' ∧ Text.startsWith rest ['"', '"'] then (.plain, .pass 1 .plain .code, fresh)
    else if c = '\\' then (.literal, .escape .textBlock, fresh)
    else (.literal, .textBlock, freshAfter fresh c)
  | .raw close =>
    if Text.startsWith (c :: rest) close then
      (.plain, .passing (close.length - 1) .plain .code, fresh)
    else (.literal, .raw close, freshAfter fresh c)
  | .escape back => (.literal, back, fresh && c.utf8Size == 1)
  | .pass more shade next => (shade, .passing more shade next, fresh)

/-- The shades of a text, one for each character. -/
def shadesFrom (rules : MaskRules) : Mode → Bool → Option Char → List Char → List Shade
  | _, _, _, [] => []
  | mode, fresh, previous, c :: rest =>
    let (shade, next, fresh) := step rules mode fresh previous c rest
    shade :: shadesFrom rules next fresh (some c) rest

def shades (rules : MaskRules) (text : List Char) : List Shade :=
  shadesFrom rules .code true none text

/-- One space for each byte of a character; a line feed stays. -/
def blank (c : Char) : List Char :=
  if c = '\n' then ['\n'] else List.replicate c.utf8Size ' '

/-- A text in which the characters whose shade is hidden are blank. -/
def paint (hidden : Shade → Bool) : List Shade → List Char → List Char
  | shade :: shades, c :: rest =>
    (if hidden shade then blank c else [c]) ++ paint hidden shades rest
  | _, rest => rest

/-- The view without comments. -/
def stripped (rules : MaskRules) (text : List Char) : List Char :=
  paint (· == .comment) (shades rules text) text

/-- The view without comments and without the contents of literals. -/
def masked (rules : MaskRules) (text : List Char) : List Char :=
  paint (· != .plain) (shades rules text) text

/-- Blanking keeps the width. -/
theorem width_blank (c : Char) : Text.width (blank c) = c.utf8Size := by
  unfold blank
  split
  · next h => subst h; rfl
  · generalize c.utf8Size = n
    induction n with
    | zero => rfl
    | succ n ih =>
      rw [List.replicate_succ, Text.width_cons, ih, show (' ' : Char).utf8Size = 1 from rfl,
        Nat.add_comm]

/-- Painting keeps the width, whatever the shades are. -/
theorem width_paint (hidden : Shade → Bool) (shades : List Shade) (text : List Char) :
    Text.width (paint hidden shades text) = Text.width text := by
  induction text generalizing shades with
  | nil => cases shades <;> rfl
  | cons c rest ih =>
    cases shades with
    | nil => rfl
    | cons shade shades =>
      rw [paint, Text.width_append, ih, Text.width_cons]
      split
      · rw [width_blank]
      · simp

theorem width_masked (rules : MaskRules) (text : List Char) :
    Text.width (masked rules text) = Text.width text := width_paint _ _ _

theorem width_stripped (rules : MaskRules) (text : List Char) :
    Text.width (stripped rules text) = Text.width text := width_paint _ _ _

end Mask
end Outline
