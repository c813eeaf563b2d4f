import Outline.Source.Basic
import Outline.Source.Delimiter

/-!
Where statements begin and end in a masked text.

The readers below pass over groups in one step.  `resume` is the offset where
they begin, or the one after the last group they entered; the characters before it
are left alone.
-/

namespace Outline
namespace Statement

/-- Whether a text ends with a word that names an access section. -/
def endsWithAccess (text : List Char) : Bool :=
  ["public", "protected", "private"].any fun word => Text.endsWith text word.toList

/-- Whether a declaration may start after a text: what the text ends with,
blanks aside, ends a statement or a block, or is the colon of an access label
where such labels are in use. -/
def startsAfter (before : List Char) (labels : Bool) : Bool :=
  match before.reverse.dropWhile Text.isBlank with
  | [] => true
  | ':' :: before => labels && endsWithAccess (before.dropWhile Text.isBlank).reverse
  | c :: _ => c == '\x7b' || c == '\x7d' || c == ';'

def startsAt (masked : List Char) (offset : Nat) (labels : Bool) : Except ExtractError Bool :=
  (SourceText.headTo masked (min offset (Text.width masked))).map (startsAfter · labels)

def bodyOpenFrom : Nat → Nat → List Char → Option Nat
  | _, _, [] => none
  | resume, offset, c :: rest =>
    if offset < resume then bodyOpenFrom resume (offset + c.utf8Size) rest
    else if c = '\x7b' then some offset
    else if c = ';' ∨ c = '\x7d' then none
    else if c = '(' then
      match Delimiter.closeOf? offset (c :: rest) with
      | some close => bodyOpenFrom (close + 1) (offset + c.utf8Size) rest
      | none => none
    else bodyOpenFrom resume (offset + c.utf8Size) rest

/-- What lies before the place from which to go on is left alone. -/
theorem bodyOpenFrom_of_le {resume offset : Nat} {a : List Char} (rest : List Char)
    (h : offset + Text.width a ≤ resume) :
    bodyOpenFrom resume offset (a ++ rest) = bodyOpenFrom resume (offset + Text.width a) rest := by
  induction a generalizing offset with
  | nil => rfl
  | cons c a ih =>
    have hpos := Char.utf8Size_pos c
    rw [Text.width_cons] at h
    rw [List.cons_append, bodyOpenFrom, if_pos (by omega), ih (by omega), Text.width_cons,
      Nat.add_assoc]

/-- The first opening brace at or after an offset and outside of parentheses,
unless a statement or a block ends before it. -/
def bodyOpen? (masked : List Char) (start : Nat) : Option Nat :=
  bodyOpenFrom start 0 masked

/-- The end of a statement whose text stops at `stop`. -/
def endFrom (stop : Nat) : Nat → Nat → List Char → Nat
  | _, _, [] => stop
  | resume, offset, c :: rest =>
    if offset < resume then endFrom stop resume (offset + c.utf8Size) rest
    else if c = ';' ∨ c = '\x7d' then offset
    else if c = '(' ∨ c = '\x7b' ∨ c = '[' then
      match Delimiter.closeOf? offset (c :: rest) with
      | some close => endFrom stop (close + 1) (offset + c.utf8Size) rest
      | none => stop
    else endFrom stop resume (offset + c.utf8Size) rest

/-- What lies before the place from which to go on is left alone. -/
theorem endFrom_of_le (stop : Nat) {resume offset : Nat} {a : List Char} (rest : List Char)
    (h : offset + Text.width a ≤ resume) :
    endFrom stop resume offset (a ++ rest) = endFrom stop resume (offset + Text.width a) rest := by
  induction a generalizing offset with
  | nil => rfl
  | cons c a ih =>
    have hpos := Char.utf8Size_pos c
    rw [Text.width_cons] at h
    rw [List.cons_append, endFrom, if_pos (by omega), ih (by omega), Text.width_cons,
      Nat.add_assoc]

/-- The first semicolon or closing brace at or after an offset and outside of
groups, and the end of the text when there is none. -/
def endAt (masked : List Char) (start : Nat) : Nat :=
  endFrom (Text.width masked) start 0 masked

end Statement
end Outline
