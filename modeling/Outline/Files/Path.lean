import Outline.Text.Offset

/-!
Paths: texts whose parts are separated by slashes.

A path is read as its components.  Repeated slashes count once, and a dot
counts only where it stands first.
-/

namespace Outline

/-- A part of a path. -/
inductive Component
  | root
  | here
  | up
  | name (text : List Char)
  deriving DecidableEq, Repr

namespace Component

/-- The kinds of components in their order. -/
def rank : Component → Nat
  | .root => 0
  | .here => 1
  | .up => 2
  | .name _ => 3

def name? : Component → Option (List Char)
  | .name text => some text
  | _ => none

def text (component : Component) : List Char := component.name?.getD []

/-- Whether a component comes before another: by kind, and names by their
characters, which is the order of their UTF-8 bytes. -/
def isBefore (a b : Component) : Bool := a.rank < b.rank || (a.rank == b.rank && a.text < b.text)

end Component

namespace Path

def component? (first : Bool) (piece : List Char) : Option Component :=
  if piece.isEmpty then (if first then some .root else none)
  else if piece = ['.'] then (if first then some .here else none)
  else if piece = ['.', '.'] then some .up
  else some (.name piece)

/-- The components of a path; the empty path has none. -/
def components (path : List Char) : List Component :=
  if path.isEmpty then []
  else
    match Text.splitAt '/' path with
    | [] => []
    | first :: rest => (component? true first).toList ++ rest.filterMap (component? false)

/-- Whether components come before others or are the same. -/
def areOrdered : List Component → List Component → Bool
  | [], _ => true
  | _ :: _, [] => false
  | a :: as, b :: bs => if a = b then areOrdered as bs else a.isBefore b

/-- The names a path leads through. -/
def names (path : List Char) : List (List Char) := (components path).filterMap Component.name?

/-- The order of paths by their components, so that the files of a directory stay
together. -/
def isAtMost (a b : List Char) : Bool := areOrdered (components a) (components b)

/-- The name of the file a path leads to: its last component, if that is a
name. -/
def fileName? (path : List Char) : Option (List Char) :=
  match (components path).getLast? with
  | some (.name text) => some text
  | _ => none

/-- What follows the last dot of a file name, unless the dot leads the name. -/
def extensionOf? (name : List Char) : Option (List Char) :=
  (Text.cutLast? ['.'] name).bind fun (stem, extension) =>
    if stem.isEmpty then none else some extension

def extension? (path : List Char) : Option (List Char) := (fileName? path).bind extensionOf?

/-- Pieces without the ones at their end that lead nowhere. -/
def trimPieces (pieces : List (List Char)) : List (List Char) :=
  (pieces.reverse.dropWhile fun piece => piece.isEmpty || piece = ['.']).reverse

/-- The directory part of the path of a file; it is empty where there is none. -/
def parent (path : List Char) : List Char :=
  match (Text.splitAt '/' path).dropLast with
  | [] => []
  | first :: rest =>
    match trimPieces rest with
    | [] => if first.isEmpty then ['/'] else first
    | rest => Text.join ['/'] (first :: rest)

/-- A name below a directory. -/
def child (directory name : List Char) : List Char :=
  if directory.isEmpty then name
  else if directory.getLast? = some '/' then directory ++ name
  else directory ++ ['/'] ++ name

end Path
end Outline
