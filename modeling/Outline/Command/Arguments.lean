import Outline.Text.Offset

/-!
The command line: the commands there are, and how their arguments are read.

An option takes its value from its own word or from the next one.  A value is
checked only when the next argument is read or the words end, so that of two
faults in a row the first one is reported; a word that no argument knows is
reported before.
-/

namespace Outline

/-- What the `parse` command is asked for. -/
structure ParseArguments where
  path : String
  /-- The language of the file, in place of that of its extension. -/
  language : Option String
  format : String
  /-- The configuration file, in place of one that is looked for. -/
  config : Option String
  verbose : Bool
  failOnErrors : Bool
  deriving DecidableEq, Repr

inductive Command
  | parse (arguments : ParseArguments)
  | languages
  deriving DecidableEq, Repr

/-- Why words do not make a command.  Help and version are asked for in the place
of one. -/
inductive UsageError
  | helpRequested
  | versionRequested
  | missingCommand
  | unknownCommand
  | missingPath
  | unknownArgument
  | invalidValue
  | repeatedArgument
  | unneededValue
  deriving DecidableEq, Repr

namespace UsageError

def exitCode : UsageError → Nat
  | .helpRequested | .versionRequested => 0
  | _ => 2

end UsageError

namespace Arguments

/-- The arguments that take a value. -/
inductive Slot
  | path
  | language
  | format
  | config
  deriving DecidableEq, Repr

/-- Whether the value of a slot names a file, and so is not empty. -/
def Slot.isPath : Slot → Bool
  | .path | .config => true
  | _ => false

inductive Flag
  | verbose
  | failOnErrors
  deriving DecidableEq, Repr

/-- What an option stands for. -/
inductive Opt
  | help
  | flag (flag : Flag)
  | slot (slot : Slot)
  deriving DecidableEq, Repr

def Opt.ofLong? : List Char → Option Opt := fun name =>
  match String.ofList name with
  | "help" => some .help
  | "verbose" => some (.flag .verbose)
  | "fail-on-errors" => some (.flag .failOnErrors)
  | "language" => some (.slot .language)
  | "format" => some (.slot .format)
  | "config" => some (.slot .config)
  | _ => none

def Opt.ofShort? : Char → Option Opt
  | 'h' => some .help
  | 'v' => some (.flag .verbose)
  | 'l' => some (.slot .language)
  | 'f' => some (.slot .format)
  | 'c' => some (.slot .config)
  | _ => none

/-- The arguments read so far.  The last slot that was named is pending, with its
value or still without; `literal` tells that no more options follow. -/
structure State where
  values : List (Slot × List Char)
  flags : List Flag
  pending : Option (Slot × Option (List Char))
  literal : Bool
  deriving DecidableEq, Repr

namespace State

def start : State := ⟨[], [], none, false⟩

/-- Give a slot its value. -/
def assign (state : State) (slot : Slot) (value : List Char) : Except UsageError State :=
  if (state.values.lookup slot).isSome then .error .repeatedArgument
  else if slot.isPath && value.isEmpty then .error .invalidValue
  else .ok { state with values := (slot, value) :: state.values }

/-- Give the pending slot its value. -/
def settle (state : State) : Except UsageError State :=
  match state.pending with
  | none => .ok state
  | some (_, none) => .error .invalidValue
  | some (slot, some value) => { state with pending := none }.assign slot value

def raise (state : State) (flag : Flag) : Except UsageError State := do
  let state ← state.settle
  if state.flags.contains flag then throw .repeatedArgument
  else return { state with flags := flag :: state.flags }

/-- Name a slot whose value may be in the same word. -/
def name (state : State) (slot : Slot) (value : Option (List Char)) : Except UsageError State := do
  let state ← state.settle
  match value with
  | some value => state.assign slot value
  | none => return { state with pending := some (slot, none) }

/-- Ask for help, which comes after the arguments before it. -/
def help (state : State) : Except UsageError State := do
  let _ ← state.settle
  throw .helpRequested

def hasPath (state : State) : Bool :=
  (state.values.lookup .path).isSome || (state.pending.map (·.1)) == some .path

/-- Read a word that is no option. -/
def readPath (state : State) (word : List Char) : Except UsageError State := do
  if state.hasPath then throw .unknownArgument
  else
    let state ← state.settle
    return { state with pending := some (.path, some word) }

/-- Read a long option, after its hyphens. -/
def readLong (state : State) (word : List Char) : Except UsageError State :=
  let name := word.takeWhile (· != '=')
  let value := (word.dropWhile (· != '=')).tail?
  match Opt.ofLong? name, value with
  | none, _ => .error .unknownArgument
  | some (.slot slot), value => state.name slot value
  | some _, some _ => .error .unneededValue
  | some .help, none => state.help
  | some (.flag flag), none => state.raise flag

/-- Read short options in one word, the last of which may have its value there. -/
def readShort (state : State) : List Char → Except UsageError State
  | [] => .ok state
  | c :: rest =>
    match Opt.ofShort? c with
    | none => .error .unknownArgument
    | some .help => state.help
    | some (.flag flag) => (state.raise flag).bind fun state => state.readShort rest
    | some (.slot slot) =>
      match rest with
      | [] => state.name slot none
      | '=' :: value => state.name slot (some value)
      | value => state.name slot (some value)

/-- Read one word. -/
def read (state : State) (word : List Char) : Except UsageError State :=
  if state.literal then state.readPath word
  else
    match word with
    | ['-', '-'] => .ok { state with literal := true }
    | '-' :: '-' :: rest => state.readLong rest
    | '-' :: c :: rest => state.readShort (c :: rest)
    | word =>
      match state.pending with
      | some (slot, none) => .ok { state with pending := some (slot, some word) }
      | _ => state.readPath word

/-- The value of a slot, if it was given one. -/
def value? (state : State) (slot : Slot) : Option String :=
  (state.values.lookup slot).map String.ofList

def finish (state : State) : Except UsageError ParseArguments := do
  let state ← state.settle
  match state.value? .path with
  | none => throw .missingPath
  | some path =>
    return {
      path
      language := state.value? .language
      format := (state.value? .format).getD "pretty"
      config := state.value? .config
      verbose := state.flags.contains .verbose
      failOnErrors := state.flags.contains .failOnErrors }

end State

/-- The arguments of the `parse` command. -/
def readParse (words : List (List Char)) : Except UsageError ParseArguments :=
  (words.foldlM State.read .start).bind State.finish

/-- The `languages` command takes no arguments. -/
def readLanguages : List (List Char) → Except UsageError Unit
  | [] => .ok ()
  | ['-', '-'] :: rest => if rest.isEmpty then .ok () else .error .unknownArgument
  | ('-' :: '-' :: word) :: _ =>
    if word = "help".toList then .error .helpRequested
    else if word.takeWhile (· != '=') = "help".toList then .error .unneededValue
    else .error .unknownArgument
  | ('-' :: 'h' :: _) :: _ => .error .helpRequested
  | _ => .error .unknownArgument

def parseNames : List String := ["parse", "summarize"]

def commandNames : List String := parseNames ++ ["languages", "help"]

/-- Help on a command, or on all of them. -/
def readHelp : List (List Char) → UsageError
  | [] => .helpRequested
  | [name] => if commandNames.contains (String.ofList name) then .helpRequested else .unknownCommand
  | _ => .unknownCommand

/-- Read an option in front of the command. -/
def readGlobal (word : List Char) : UsageError :=
  match word with
  | '-' :: '-' :: rest =>
    let name := rest.takeWhile (· != '=')
    if name = "help".toList ∨ name = "version".toList then
      if name.length < rest.length then .unneededValue
      else if name = "help".toList then .helpRequested
      else .versionRequested
    else .unknownArgument
  | '-' :: 'h' :: _ => .helpRequested
  | '-' :: 'V' :: _ => .versionRequested
  | '-' :: _ :: _ => .unknownArgument
  | _ => .unknownCommand

/-- Read what follows two hyphens in front of a command, where none is
understood. -/
def readLiteral : List (List Char) → UsageError
  | [] => .missingCommand
  | name :: _ =>
    if commandNames.contains (String.ofList name) then .unknownArgument else .unknownCommand

end Arguments

/-- The command that words stand for. -/
def Command.ofWords : List (List Char) → Except UsageError Command
  | [] => .error .missingCommand
  | word :: rest =>
    if Arguments.parseNames.contains (String.ofList word) then
      (Arguments.readParse rest).map .parse
    else if word = "languages".toList then
      (Arguments.readLanguages rest).map fun _ => .languages
    else if word = "help".toList then .error (Arguments.readHelp rest)
    else if word = ['-', '-'] then .error (Arguments.readLiteral rest)
    else .error (Arguments.readGlobal word)

end Outline
