import Outline.Command.Run

/-!
The program: it reads what a command may look at, runs the command, and prints
what it leaves behind.

The files are read into a tree first.  Links are entered with the places the
system resolves them to, and these places are read as well.  Contents are read
only of files that the command may ask for.
-/

namespace Outline
namespace Program

/-- A name that no file has, for links that lead nowhere. -/
def nowhere : List Char := [Char.ofNat 0]

/-- Whether the contents of a file found in a directory may be asked for. -/
def isAskedFor (name : String) : Bool :=
  Config.fileNames.contains name
    || match Registry.builtIn.forPath name.toList with
      | .ok _ => true
      | .error _ => false

def readFile (path : String) : IO Tree := return .file (← IO.FS.readBinFile path).toList

/-- The place a path leads to, with all links resolved. -/
def realPath (path : String) : IO String := return (← IO.FS.realPath path).toString

/-- The entries of a directory, and the places its links lead to. -/
partial def readDirectory (path : String) : IO (List (List Char × Tree) × List String) := do
  let mut entries := []
  let mut targets := []
  for entry in ← ((← IO.currentDir) / path).readDir do
    let name := entry.fileName.toList
    match (← entry.path.symlinkMetadata).type with
    | .symlink =>
      try
        let target ← realPath entry.path.toString
        entries := (name, .link target.toList) :: entries
        targets := target :: targets
      catch _ => entries := (name, .link nowhere) :: entries
    | .dir =>
      if Walk.isSkipped name then entries := (name, .directory []) :: entries
      else
        let (inner, more) ← readDirectory entry.path.toString
        entries := (name, .directory inner) :: entries
        targets := more ++ targets
    | .file =>
      let tree ← if isAskedFor entry.fileName then readFile entry.path.toString else pure (.file [])
      entries := (name, tree) :: entries
    | .other => pure ()
  return (entries, targets)

/-- What is at a place without links, and the places its links lead to. -/
def readPlace (path : String) : IO (Tree × List String) := do
  match (← ((← IO.currentDir) / path).metadata).type with
  | .dir =>
    let (entries, targets) ← readDirectory path
    return (.directory entries, targets)
  | _ => return (← readFile path, [])

/-- What is at the given places, and at all places that links lead to from
there. -/
partial def readPlaces (found : List (String × Tree)) : List String → IO (List (String × Tree))
  | [] => return found
  | path :: rest => do
    if (found.lookup path).isSome then readPlaces found rest
    else
      let (tree, targets) ← readPlace path
      readPlaces ((path, tree) :: found) (targets ++ rest)

/-- The beginnings of a path that end before a slash or with the path. -/
def beginnings (path : List Char) : List (List Char) :=
  let pieces := Text.splitAt '/' path
  (List.range pieces.length).map fun n => Text.join ['/'] (pieces.take (n + 1))

/-- The directories that a path leads through, still empty, and the links on its
way with the places they lead to. -/
def along (path : String) : IO (List (String × Tree) × List (String × Tree)) := do
  let mut directories := []
  let mut links := []
  for beginning in beginnings path.toList do
    let place := (← IO.currentDir) / String.ofList beginning
    try
      let target ← realPath place.toString
      if (← place.metadata).type == .dir then
        directories := (target, .directory []) :: directories
      if (← place.symlinkMetadata).type == .symlink then
        let around ← realPath ((← IO.currentDir) / String.ofList (Path.parent beginning)).toString
        let name := (Path.fileName? beginning).getD []
        links := (String.ofList (Path.child around.toList name), .link target.toList) :: links
    catch _ => pure ()
  return (directories, links)

/-- Put trees into a tree, the outer ones first. -/
def putAll (found : List (String × Tree)) (root : Tree) : Tree :=
  let trees := found.map fun (path, tree) => (Path.names path.toList, tree)
  let sorted := trees.mergeSort fun a b => a.1.length ≤ b.1.length
  sorted.foldl (fun root (names, tree) => Tree.insert tree names root) root

/-- The paths that a command may ask for, apart from those below its own path. -/
def pathsOf : Command → List String
  | .languages => []
  | .parse arguments =>
    let around := Path.parent arguments.path.toList
    arguments.path :: arguments.config.toList
      ++ Config.fileNames.map fun name => String.ofList (Path.child around name.toList)

/-- The working directory with everything that a command may look at. -/
def survey (command : Command) : IO Place := do
  let here := (← IO.currentDir).toString
  let mut directories := [(here, .directory [])]
  let mut links := []
  let mut places := []
  for path in pathsOf command do
    let (passed, linked) ← along path
    directories := passed ++ directories
    links := linked ++ links
    try places := (← realPath ((← IO.currentDir) / path).toString) :: places
    catch _ => pure ()
  let root := putAll directories (.directory [])
  let root := putAll (links ++ (← readPlaces [] places)) root
  match Place.follow ⟨root, []⟩ here.toList with
  | .ok place => return place
  | .error _ => return ⟨root, []⟩

def usage : String :=
  "Usage: codeshape <parse|summarize> [OPTIONS] <PATH>\n       codeshape languages\n\n"
    ++ "Options of parse:\n"
    ++ "  -l, --language <LANGUAGE>  the language of a file, in place of that of its extension\n"
    ++ "  -f, --format <FORMAT>      the form of the report: pretty or json\n"
    ++ "  -c, --config <CONFIG>      the configuration file, in place of one that is found\n"
    ++ "  -v, --verbose              log the declarations that are found\n"
    ++ "      --fail-on-errors       end with 1 where a file has syntax errors\n"

/-- What is wrong with the words of a command. -/
def describe : UsageError → String
  | .helpRequested | .versionRequested => ""
  | .missingCommand => "a command is needed"
  | .unknownCommand => "there is no such command"
  | .missingPath => "a path is needed"
  | .unknownArgument => "there is no such argument"
  | .invalidValue => "a value is needed"
  | .repeatedArgument => "an argument is given twice"
  | .unneededValue => "an argument takes no value"

def explain (error : UsageError) : IO Unit :=
  match error with
  | .helpRequested => IO.print usage
  | .versionRequested => IO.println ("codeshape " ++ Report.programVersion)
  | error => do
    IO.eprintln ("error: " ++ describe error)
    IO.eprint ("\n" ++ usage)

/-- Whether the output is for a terminal that shows colors. -/
def showsColors : IO Bool := do
  let noColor ← IO.getEnv "NO_COLOR"
  return noColor.isNone && (← (← IO.getStdout).isTty)

def run (command : Command) : IO Nat := do
  let working ← survey command
  let outcome := command.run working ⟨← showsColors⟩
  IO.print outcome.output
  for line in outcome.messages do IO.eprintln line
  for failure in outcome.failure do IO.eprintln (Outcome.errorLine failure)
  return outcome.exitCode

end Program
end Outline

def main (words : List String) : IO UInt32 := do
  match Outline.Command.ofWords (words.map String.toList) with
  | .error error =>
    Outline.Program.explain error
    return error.exitCode.toUInt32
  | .ok command => return (← Outline.Program.run command).toUInt32
