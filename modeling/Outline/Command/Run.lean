import Outline.Analyzer
import Outline.Command.Arguments
import Outline.Config.File
import Outline.Json.Printer
import Outline.Report.Pretty

/-!
Running a command: what it prints and how it ends.
-/

namespace Outline

/-- The forms of a report. -/
inductive Format
  | pretty
  | json
  deriving DecidableEq, Repr

namespace Format

def ofName? (name : String) : Option Format :=
  if name = "pretty" then some .pretty else if name = "json" then some .json else none

end Format

/-- What a command leaves behind. -/
structure Outcome where
  exitCode : Nat
  output : String
  /-- The lines for the reader that are no part of the output. -/
  messages : List String
  /-- What made the command give up. -/
  failure : Option String
  deriving DecidableEq, Repr

namespace Outcome

/-- The exit code of a command that could not do its work. -/
def errorCode : Nat := 2

def refused (messages : List String) : Outcome := ⟨errorCode, "", messages, none⟩

/-- The message of an error. -/
def errorLine (text : String) : String := "Error: " ++ text

end Outcome

namespace Command

/-- Why a run of the `parse` command ends early. -/
inductive Refusal
  | badFormat (name : String)
  | badLanguage (cause : LookupError)
  | badPath (path : String) (cause : AccessError)
  | unloadedConfig (cause : Config.LoadError)
  | invalidConfig (cause : Config.Fault)
  | unanalyzed (cause : AnalysisError)
  deriving DecidableEq, Repr

namespace Refusal

/-- What the reader is told. -/
def messages : Refusal → List String
  | .badFormat name =>
    [Outcome.errorLine ("invalid format " ++ Text.quoted name ++ ", must be 'pretty' or 'json'")]
  | .badLanguage cause =>
    [Outcome.errorLine cause.message, "Run 'codeshape languages' to see supported languages"]
  | .badPath path cause =>
    [Outcome.errorLine ("cannot access path " ++ Text.quoted path ++ ": " ++ cause.message)]
  | .unloadedConfig cause => [Outcome.errorLine cause.message]
  | .invalidConfig cause => [Outcome.errorLine ("invalid config: " ++ cause.message)]
  | .unanalyzed cause => [Outcome.errorLine cause.message]

end Refusal

/-- The configuration of a run: from the file that is named, or from one in the
directory that is looked at, or the standard one. -/
def configOf (working : Place) (arguments : ParseArguments) (place : Place) :
    Except Refusal Config := do
  let path := arguments.path.toList
  let directory := if place.tree.isDirectory then path else Path.parent path
  let file := (arguments.config.map String.toList).or (Config.discover? working directory)
  let config ←
    match file with
    | none => pure .standard
    | some file => (Config.load working file).mapError .unloadedConfig
  return if arguments.verbose then { config with verbose := true } else config

/-- What a run needs: its format, what its path leads to, and an analyzer with a
configuration that has no faults. -/
structure Setting where
  format : Format
  place : Place
  analyzer : Analyzer

def checkLanguage (registry : Registry) (language : Option String) : Except Refusal Unit :=
  match language with
  | none => .ok ()
  | some language =>
    match registry.get language.toList with
    | .ok _ => .ok ()
    | .error cause => .error (.badLanguage cause)

/-- Check the arguments of a run, in order. -/
def settingOf (working : Place) (arguments : ParseArguments) : Except Refusal Setting := do
  let registry := Registry.builtIn
  let format ←
    match Format.ofName? arguments.format with
    | some format => pure format
    | none => throw (.badFormat arguments.format)
  checkLanguage registry arguments.language
  let place ← (working.follow arguments.path.toList).mapError (.badPath arguments.path)
  let config ← configOf working arguments place
  match config.fault? registry.languages with
  | some fault => throw (.invalidConfig fault)
  | none => return ⟨format, place, ⟨registry, config, working⟩⟩

/-- The text of a report. -/
def render (format : Format) (palette : Pretty.Palette) (path : String) (files : List FileSummary) :
    String :=
  match format with
  | .json => (Report.ofFiles path files).toJson.pretty 0 ++ "\n"
  | .pretty => Pretty.report palette path files

/-- A report on files. -/
def reportOn (setting : Setting) (palette : Pretty.Palette) (arguments : ParseArguments)
    (files : List FileSummary) : Outcome :=
  ⟨exitCode files arguments.failOnErrors, render setting.format palette arguments.path files, [],
    none⟩

/-- Report on the files in a directory. -/
def runDirectory (setting : Setting) (palette : Pretty.Palette) (arguments : ParseArguments) :
    Outcome :=
  match setting.analyzer.collect arguments.path.toList with
  | .error cause =>
    ⟨Outcome.errorCode, "", [], some ("walking " ++ arguments.path ++ ": " ++ cause.message)⟩
  | .ok [] => ⟨0, "", ["Warning: no files to parse"], none⟩
  | .ok paths => reportOn setting palette arguments (setting.analyzer.files paths)

/-- Report on one file. -/
def runFile (setting : Setting) (palette : Pretty.Palette) (arguments : ParseArguments) :
    Outcome :=
  match setting.analyzer.fileAs arguments.path.toList (arguments.language.map String.toList) with
  | .error cause => .refused (Refusal.unanalyzed cause).messages
  | .ok file => reportOn setting palette arguments file.toList

def runParse (working : Place) (palette : Pretty.Palette) (arguments : ParseArguments) : Outcome :=
  match settingOf working arguments with
  | .error refusal => .refused refusal.messages
  | .ok setting =>
    if setting.place.tree.isDirectory then runDirectory setting palette arguments
    else runFile setting palette arguments

/-- A text with spaces up to a width. -/
def padTo (width : Nat) (text : String) : String :=
  text ++ String.ofList (List.replicate (width - text.length) ' ')

/-- The line of a language: its names and the extensions of its files. -/
def languageLine (extractor : Extractor) : String :=
  "  " ++ padTo 24 (String.intercalate ", " extractor.names) ++ " "
    ++ String.intercalate " " (extractor.extensions.map ("." ++ ·)) ++ "\n"

def runLanguages : Outcome :=
  ⟨0, "Supported languages:\n\n" ++ String.join (Registry.builtIn.extractors.map languageLine), [],
    none⟩

/-- Run a command in a working directory. -/
def run (working : Place) (palette : Pretty.Palette) : Command → Outcome
  | .parse arguments => runParse working palette arguments
  | .languages => runLanguages

end Command
end Outline
