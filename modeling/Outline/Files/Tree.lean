import Outline.Files.Path

/-!
A file system at one moment: a tree of directories, files and symbolic links,
and the ways paths lead through it.

A path is followed name by name.  A link on the way is replaced by its target,
at most `linkLimit` times, which also ends the walk through links that lead to
each other.
-/

namespace Outline

inductive Tree
  | file (bytes : List UInt8)
  | directory (entries : List (List Char × Tree))
  | link (target : List Char)
  deriving Repr, Inhabited

namespace Tree

def isDirectory : Tree → Bool
  | .directory _ => true
  | _ => false

/-- What a name stands for in a directory. -/
def find? (name : List Char) : List (List Char × Tree) → Option Tree
  | [] => none
  | (first, tree) :: rest => if first = name then some tree else find? name rest

/-- Give a name in a directory a meaning, in place of the one it has. -/
def setEntry (name : List Char) (tree : Tree) :
    List (List Char × Tree) → List (List Char × Tree)
  | [] => [(name, tree)]
  | (first, old) :: rest =>
    if first = name then (name, tree) :: rest else (first, old) :: setEntry name tree rest

/-- The entries of a directory. -/
def entries : Tree → List (List Char × Tree)
  | .directory entries => entries
  | _ => []

/-- Put a tree at the end of a chain of names, in place of what is there.
Directories are made as needed. -/
def insert (tree : Tree) : List (List Char) → Tree → Tree
  | [], _ => tree
  | name :: rest, around =>
    let inner := (find? name around.entries).getD (.directory [])
    .directory (setEntry name (insert tree rest inner) around.entries)

mutual

/-- The number of directories in a tree, counting itself. -/
def directoryCount : Tree → Nat
  | .directory entries => directoryCounts entries + 1
  | _ => 0

def directoryCounts : List (List Char × Tree) → Nat
  | [] => 0
  | (_, tree) :: rest => directoryCount tree + directoryCounts rest

end

end Tree

/-- Why a path leads nowhere, or its contents cannot be read. -/
inductive AccessError
  | notFound
  | notDirectory
  | isDirectory
  | tooManyLinks
  /-- The contents are no text. -/
  | notText
  deriving DecidableEq, Repr

namespace AccessError

def message : AccessError → String
  | .notFound => "No such file or directory (os error 2)"
  | .notDirectory => "Not a directory (os error 20)"
  | .isDirectory => "Is a directory (os error 21)"
  | .tooManyLinks => "Too many levels of symbolic links (os error 40)"
  | .notText => "stream did not contain valid UTF-8"

end AccessError

/-- A place in a file system: what is there, and the directories around it, the
innermost first, each with the name that leads on from it. -/
structure Place where
  tree : Tree
  above : List (List Char × Tree)
  deriving Repr, Inhabited

namespace Place

/-- The names that lead to a place from the root, the last one first. -/
def names (place : Place) : List (List Char) := place.above.map (·.1)

/-- The place that a name of a directory leads to. -/
def enter (place : Place) (name : List Char) (tree : Tree) : Place :=
  ⟨tree, (name, place.tree) :: place.above⟩

/-- The directory around a place.  The root is around itself. -/
def parent (place : Place) : Place :=
  match place.above with
  | [] => place
  | (_, directory) :: above => ⟨directory, above⟩

/-- The outermost directory around a place. -/
def root (place : Place) : Place :=
  match place.above.getLast? with
  | some (_, directory) => ⟨directory, []⟩
  | none => place

/-- Whether two places of one file system are the same. -/
def isSame (a b : Place) : Bool := a.names == b.names

/-- Where a path starts that is read at a place. -/
def start (place : Place) (path : List Char) : Place :=
  if path.head? = some '/' then place.root else place

/-- Follow the pieces of a path that stand between its slashes; `jump` goes on
from a directory through the target of a link. -/
def followWith (jump : Place → List Char → List (List Char) → Except AccessError Place) :
    Place → List (List Char) → Except AccessError Place
  | place, [] => .ok place
  | place, piece :: rest =>
    match place.tree with
    | .directory entries =>
      if piece.isEmpty || piece = ['.'] then followWith jump place rest
      else if piece = ['.', '.'] then followWith jump place.parent rest
      else
        match Tree.find? piece entries with
        | none => .error .notFound
        | some (.link target) => jump place target rest
        | some tree => followWith jump (place.enter piece tree) rest
    | _ => .error .notDirectory

/-- Follow the target of a link and the pieces after it, through at most so many
links. -/
def followLink : Nat → Place → List Char → List (List Char) → Except AccessError Place
  | 0, _, _, _ => .error .tooManyLinks
  | limit + 1, place, target, rest =>
    followWith (followLink limit) (place.start target) (Text.splitAt '/' target ++ rest)

/-- How many links a path may lead through. -/
def linkLimit : Nat := 40

/-- The place that a path leads to from a directory. -/
def follow (place : Place) (path : List Char) : Except AccessError Place :=
  if path.isEmpty then .error .notFound
  else followWith (followLink linkLimit) (place.start path) (Text.splitAt '/' path)

/-- What a directory counts as when its size is asked for. -/
def directorySize : Nat := 4096

def size (place : Place) : Nat :=
  match place.tree with
  | .file bytes => bytes.length
  | _ => directorySize

/-- The contents of a file. -/
def read (place : Place) : Except AccessError (List UInt8) :=
  match place.tree with
  | .file bytes => .ok bytes
  | _ => .error .isDirectory

end Place
end Outline
