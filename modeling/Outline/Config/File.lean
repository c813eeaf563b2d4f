import Outline.Config.Yaml
import Outline.Files.Tree
import Outline.Text.Utf8

/-!
Configuration files: where they are looked for, and how they are read.
-/

namespace Outline
namespace Config

/-- The names of configuration files; the first one that exists is taken. -/
def fileNames : List String := ["codeshape.yaml", ".codeshape.yaml"]

def isPresent (working : Place) (path : List Char) : Bool :=
  match working.follow path with
  | .ok _ => true
  | .error _ => false

/-- The configuration file in a directory. -/
def discover? (working : Place) (directory : List Char) : Option (List Char) :=
  (fileNames.map fun name => Path.child directory name.toList).find? (isPresent working)

/-- Why a configuration file is of no use. -/
inductive LoadError
  | unreadable (path : List Char) (cause : AccessError)
  | malformed (path : List Char)
  deriving DecidableEq, Repr

namespace LoadError

/-- What failed. -/
def subject : LoadError → String
  | .unreadable path _ => "reading config " ++ String.ofList path
  | .malformed path => "parsing config " ++ String.ofList path

/-- What failed, and why where that is known. -/
def message : LoadError → String
  | .unreadable path cause => (unreadable path cause).subject ++ ": " ++ cause.message
  | .malformed path => (malformed path).subject

end LoadError

/-- The text of a file. -/
def readText (working : Place) (path : List Char) : Except AccessError (List Char) := do
  let place ← working.follow path
  let bytes ← place.read
  match Utf8.decode? bytes with
  | some text => return text
  | none => throw .notText

/-- The configuration in a file. -/
def load (working : Place) (path : List Char) : Except LoadError Config :=
  match readText working path with
  | .error cause => .error (.unreadable path cause)
  | .ok text =>
    match parse? text with
    | some config => .ok config
    | none => .error (.malformed path)

end Config
end Outline
