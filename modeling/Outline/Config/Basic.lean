import Outline.Glob.Match
import Outline.Text.Quoted

/-!
The configuration of a run: which files are looked at, and how.
-/

namespace Outline

structure Config where
  /-- Larger files are skipped. -/
  maxFileBytes : Nat
  /-- Glob patterns of paths that are left out. -/
  excludedPaths : List String
  /-- The ids of the languages to look at; none means all of them. -/
  languages : List String
  /-- Whether files may be read at the same time.  The results are the same. -/
  parallel : Bool
  /-- Whether declarations are logged as they are found. -/
  verbose : Bool
  deriving DecidableEq, Repr

namespace Config

/-- What holds where nothing is configured. -/
def standard : Config :=
  { maxFileBytes := 2 * 1024 * 1024, excludedPaths := [], languages := [], parallel := true,
    verbose := false }

instance : Inhabited Config := ⟨standard⟩

/-- Whether a pattern matches a path.  A pattern that cannot be read matches
nothing. -/
def patternMatches (pattern : String) (path : List Char) : Bool :=
  match Glob.parse pattern.toList with
  | .ok tokens => Glob.isMatch tokens path
  | .error _ => false

def excludes (config : Config) (path : List Char) : Bool :=
  config.excludedPaths.any (patternMatches · path)

def enables (config : Config) (language : String) : Bool :=
  config.languages.isEmpty || config.languages.contains language

/-- What is wrong with a configuration. -/
inductive Fault
  | noFileFits
  | badPattern (pattern : String) (cause : Glob.Error)
  | unknownLanguage (language : String) (known : List String)
  deriving DecidableEq, Repr

def Fault.message : Fault → String
  | .noFileFits => "max_file_bytes must be greater than zero"
  | .badPattern pattern cause =>
    "invalid excluded_paths pattern " ++ Text.quoted pattern ++ ": " ++ cause.message pattern
  | .unknownLanguage language known =>
    "unknown language " ++ Text.quoted language ++ " (known: " ++ String.intercalate ", " known
      ++ ")"

def patternFault? (pattern : String) : Option Fault :=
  match Glob.parse pattern.toList with
  | .ok _ => none
  | .error cause => some (.badPattern pattern cause)

def languageFault? (known : List String) (language : String) : Option Fault :=
  if known.contains language then none else some (.unknownLanguage language known)

/-- The first fault of a configuration, given the ids of the known languages. -/
def fault? (config : Config) (known : List String) : Option Fault :=
  if config.maxFileBytes = 0 then some .noFileFits
  else
    (config.excludedPaths.findSome? patternFault?).or
      (config.languages.findSome? (languageFault? known))

end Config
end Outline
