import Outline.Files.Tree

/-!
Walking through a directory: the paths of all files in it.

Links are followed like what they lead to.  A link to a directory that is being
walked already would never end and is an error, as is a link that leads nowhere.
Hidden directories and those of foreign code are not entered, except where the
walk starts.
-/

namespace Outline

inductive WalkError
  | inaccessible (path : List Char) (cause : AccessError)
  /-- A link leads back to a directory around it. -/
  | loop (path ancestor : List Char)
  deriving DecidableEq, Repr

namespace WalkError

def message : WalkError → String
  | .inaccessible path cause =>
    "IO error for operation on " ++ String.ofList path ++ ": " ++ cause.message ++ ": "
      ++ cause.message
  | .loop path ancestor =>
    "File system loop found: " ++ String.ofList path ++ " points to an ancestor "
      ++ String.ofList ancestor

end WalkError

namespace Walk

/-- The directories of foreign or generated code. -/
def foreignNames : List String := ["vendor", "node_modules", "third_party", "target", "build"]

/-- Whether a directory of this name is not entered. -/
def isSkipped (name : List Char) : Bool :=
  name.head? = some '.' || foreignNames.contains (String.ofList name)

/-- A directory that is being walked, and the path that led to it. -/
structure Visited where
  path : List Char
  place : Place
  deriving Repr

/-- How a walk goes on from the directory at the end of a trail. -/
abbrev Jump := List Visited → Visited → Except WalkError (List (List Char))

/-- Go on where a link leads to, seen from the working directory. -/
def throughLink (jump : Jump) (working : Place) (trail : List Visited) (path name : List Char) :
    Except WalkError (List (List Char)) :=
  match working.follow path with
  | .error cause => .error (.inaccessible path cause)
  | .ok place =>
    if place.tree.isDirectory then
      match trail.find? (·.place.isSame place) with
      | some ancestor => .error (.loop path ancestor.path)
      | none => if isSkipped name then .ok [] else jump trail ⟨path, place⟩
    else .ok [path]

mutual

/-- The files at or below an entry of the directory `here`; `trail` are the
directories around the entry, the innermost first. -/
def filesOf (jump : Jump) (working : Place) (trail : List Visited) (here : Visited)
    (name : List Char) : Tree → Except WalkError (List (List Char))
  | .file _ => .ok [Path.child here.path name]
  | .link _ => throughLink jump working trail (Path.child here.path name) name
  | .directory entries =>
    if isSkipped name then .ok []
    else
      let next : Visited := ⟨Path.child here.path name, here.place.enter name (.directory entries)⟩
      filesIn jump working (next :: trail) next entries

/-- The files at or below entries of a directory. -/
def filesIn (jump : Jump) (working : Place) (trail : List Visited) (here : Visited) :
    List (List Char × Tree) → Except WalkError (List (List Char))
  | [] => .ok []
  | (name, tree) :: rest => do
    let found ← filesOf jump working trail here name tree
    let others ← filesIn jump working trail here rest
    return found ++ others

end

/-- The files in a directory that is entered, through at most so many links
within each other. -/
def enter (working : Place) : Nat → Jump
  | 0, trail, here =>
    .error (.loop here.path ((trail.head?.map (·.path)).getD []))
  | limit + 1, trail, here =>
    match here.place.tree with
    | .directory entries => filesIn (enter working limit) working (here :: trail) here entries
    | _ => .ok [here.path]

/-- The paths of the files at or below a path.  Links within each other lead to
different directories, so there are no more of them than directories. -/
def files (working : Place) (path : List Char) : Except WalkError (List (List Char)) :=
  match working.follow path with
  | .error cause => .error (.inaccessible path cause)
  | .ok place => enter working (working.root.tree.directoryCount + 1) [] ⟨path, place⟩

end Walk
end Outline
