import Outline.Text.Blank

/-!
Matching an opening delimiter with the one that closes it.

Quoted text and comments are skipped, so delimiters inside them never count.  A
quote left open at the end of a line is closed there.
-/

namespace Outline
namespace Delimiter

/-- The delimiter that closes an opening one. -/
def closing? : Char → Option Char
  | '\x7b' => some '\x7d'
  | '(' => some ')'
  | '[' => some ']'
  | '<' => some '>'
  | _ => none

/-- What the matcher is inside of. -/
inductive Mode
  | code
  | lineComment
  | blockComment
  | quoted (quote : Char)
  /-- The next character follows a backslash inside quotes. -/
  | escape (quote : Char)
  /-- The next character completes `/*` or `*/`. -/
  | pass (next : Mode)
  deriving DecidableEq, Repr

/-- The mode after one character. -/
def Mode.after (mode : Mode) (c : Char) (rest : List Char) : Mode :=
  match mode with
  | .code =>
    if c = '"' ∨ c = '\'' then .quoted c
    else if c = '/' ∧ rest.head? = some '/' then .lineComment
    else if c = '/' ∧ rest.head? = some '*' then .pass .blockComment
    else .code
  | .lineComment => if c = '\n' then .code else .lineComment
  | .blockComment => if c = '*' ∧ rest.head? = some '/' then .pass .code else .blockComment
  | .quoted quote =>
    if c = '\\' then .escape quote
    else if c = quote ∨ c = '\n' then .code
    else .quoted quote
  | .escape quote => .quoted quote
  | .pass next => next

/-- The offset at which the count of open delimiters falls to zero.  The text
starts at `offset` with `depth` delimiters open. -/
def closeFrom (opening closing : Char) : Mode → Nat → Nat → List Char → Option Nat
  | _, _, _, [] => none
  | mode, depth, offset, c :: rest =>
    let next := mode.after c rest
    let offset' := offset + c.utf8Size
    if mode = .code ∧ c = opening then closeFrom opening closing next (depth + 1) offset' rest
    else if mode = .code ∧ c = closing then
      if depth ≤ 1 then some offset else closeFrom opening closing next (depth - 1) offset' rest
    else closeFrom opening closing next depth offset' rest

/-- Where a delimiter closes, and whether it closes at all: one that does not is
given the last offset of the text. -/
structure Match where
  close : Nat
  terminated : Bool
  deriving DecidableEq, Repr

/-- The last offset of a text, and zero for the empty text. -/
def lastOffset (text : List Char) : Nat := Text.width text - 1

/-- Where the delimiter that a text begins with closes; the text starts at
`offset`. -/
def closeOf? (offset : Nat) : List Char → Option Nat
  | [] => none
  | c :: rest => (closing? c).bind fun closing => closeFrom c closing .code 0 offset (c :: rest)

/-- Match the delimiter at an offset.  An offset that holds none is its own
match, and one past the end has no match. -/
def find (text : List Char) (offset : Nat) : Match :=
  match Text.dropWidth? offset text with
  | some (c :: rest) =>
    if (closing? c).isNone then ⟨offset, true⟩
    else
      match closeOf? offset (c :: rest) with
      | some close => ⟨close, true⟩
      | none => ⟨lastOffset text, false⟩
  | _ => if Text.width text ≤ offset then ⟨lastOffset text, false⟩ else ⟨offset, true⟩

end Delimiter
end Outline
