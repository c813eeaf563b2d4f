import Outline.Text.Offset
import Outline.Text.Utf8

/-!
The braces around a position.

`BraceIndex` is built in one forward pass that keeps the stack of open braces;
`Brace.enclosingOpen` finds the innermost of them by walking back over the bytes in
front of the position.  Both assume that no brace stands inside a literal or a
comment.  A closing brace with nothing open is ignored.
-/

namespace Outline

/-- The stacks of open braces of a text, innermost first, each with the offset
from which it holds, in increasing order. -/
structure BraceIndex where
  entries : List (Nat × List Nat)
  deriving DecidableEq, Repr

namespace BraceIndex

/-- The entries of a text that starts at `offset` inside the braces `stack`. -/
def entriesFrom : List Nat → Nat → List Char → List (Nat × List Nat)
  | _, _, [] => []
  | stack, offset, c :: rest =>
    if c = '\x7b' then
      (offset + 1, offset :: stack) :: entriesFrom (offset :: stack) (offset + 1) rest
    else if c = '\x7d' then
      match stack with
      | [] => entriesFrom [] (offset + 1) rest
      | _ :: outer => (offset + 1, outer) :: entriesFrom outer (offset + 1) rest
    else entriesFrom stack (offset + c.utf8Size) rest

def ofText (text : List Char) : BraceIndex := ⟨entriesFrom [] 0 text⟩

/-- The open braces around an offset, from the innermost outward. -/
def enclosingChain (index : BraceIndex) (offset : Nat) : List Nat :=
  ((index.entries.takeWhile (·.1 ≤ offset)).getLast?.map (·.2)).getD []

/-- The innermost open brace around an offset. -/
def enclosingOpen (index : BraceIndex) (offset : Nat) : Option Nat :=
  (index.enclosingChain offset).head?

end BraceIndex

namespace Brace

/-- Walk back over bytes, nearest first, with `closed` closing braces still to be
paired, to the first opening brace left over.  The offset of a byte is the number
of bytes in front of it. -/
def openBefore : Nat → List UInt8 → Option Nat
  | _, [] => none
  | closed, byte :: before =>
    if byte = 0x7d then openBefore (closed + 1) before
    else if byte = 0x7b then
      match closed with
      | 0 => some before.length
      | closed + 1 => openBefore closed before
    else openBefore closed before

theorem lt_of_openBefore {closed p : Nat} {before : List UInt8}
    (h : openBefore closed before = some p) : p < before.length := by
  fun_induction openBefore closed before with
  | case1 => cases h
  | case2 _ _ ih | case4 _ _ _ ih | case5 _ _ _ _ _ ih => exact Nat.lt_succ_of_lt (ih h)
  | case3 before =>
    cases h
    exact Nat.lt_succ_self _

/-- The innermost open brace around an offset, found backward from there.  An offset
past the end stands for the end. -/
def enclosingOpen (text : List Char) (offset : Nat) : Option Nat :=
  openBefore 0 ((Utf8.encode text).take offset).reverse

theorem lt_of_enclosingOpen {text : List Char} {offset p : Nat}
    (h : enclosingOpen text offset = some p) : p < offset := by
  have hlt := lt_of_openBefore h
  rw [List.length_reverse, List.length_take] at hlt
  omega

/-- The open braces around an offset, each found backward from the one before. -/
def enclosingChain (text : List Char) (offset : Nat) : List Nat :=
  match _h : enclosingOpen text offset with
  | none => []
  | some p => p :: enclosingChain text p
termination_by offset
decreasing_by exact lt_of_enclosingOpen _h

end Brace
end Outline
