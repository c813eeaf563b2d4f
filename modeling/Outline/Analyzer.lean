import Outline.Config.Basic
import Outline.Extraction.Registry
import Outline.Files.Walk
import Outline.Text.Utf8

/-!
The analysis of files: which files of a directory are looked at, and what is
found in them.

A file that is configured away has no summary, which is not an error.  When
several files are analyzed, those that cannot be read are left out, and no file
bears on the others, so the order in which they are read does not matter.  When
they are analyzed at the same time, they are done in an order that is not known
before, and each result is kept at the place of its file.
-/

namespace Outline

/-- An order in which a number of jobs get done, all of them at some point. -/
structure Schedule (jobs : Nat) where
  order : List Nat
  complete : ∀ job, job < jobs → job ∈ order

namespace Schedule

variable {α β : Type}

/-- Do one of some jobs and keep its result at its place. -/
def settle (job : α → β) (inputs : List α) (results : List (Option β)) (index : Nat) :
    List (Option β) :=
  results.set index (inputs[index]?.map job)

/-- The results of jobs, in the order of their inputs, whichever gets done first. -/
def results {inputs : List α} (schedule : Schedule inputs.length) (job : α → β) :
    List (Option β) :=
  schedule.order.foldl (settle job inputs) (inputs.map fun _ => none)

end Schedule

/-- What an analysis is made with: the extractors, the configuration, and the
working directory in its file system. -/
structure Analyzer where
  registry : Registry
  config : Config
  working : Place

/-- Why a file has no summary. -/
inductive AnalysisError
  | lookup (cause : LookupError)
  | unreadable (path : List Char) (cause : AccessError)
  deriving DecidableEq, Repr

namespace AnalysisError

def message : AnalysisError → String
  | .lookup cause => cause.message
  | .unreadable path cause => "reading " ++ String.ofList path ++ ": " ++ cause.message

end AnalysisError

namespace Analyzer

/-- Whether a file found in a directory is looked at. -/
def accepts (analyzer : Analyzer) (path : List Char) : Bool :=
  match analyzer.registry.forPath path with
  | .ok extractor => analyzer.config.enables extractor.id && !analyzer.config.excludes path
  | .error _ => false

/-- The files to look at in a directory, sorted by their components. -/
def collect (analyzer : Analyzer) (root : List Char) : Except WalkError (List (List Char)) :=
  (Walk.files analyzer.working root).map fun paths =>
    (paths.filter analyzer.accepts).mergeSort Path.isAtMost

/-- The extractor for a file: that of the language, or of the extension where no
language is given. -/
def extractor (analyzer : Analyzer) (path : List Char) (language : Option (List Char)) :
    Except LookupError Extractor :=
  match language with
  | some language => analyzer.registry.get language
  | none => analyzer.registry.forPath path

/-- The contents of a file, or nothing for one that is too large. -/
def contents (analyzer : Analyzer) (path : List Char) : Except AccessError (Option (List UInt8)) := do
  let place ← analyzer.working.follow path
  if analyzer.config.maxFileBytes < place.size then return none
  else
    let bytes ← place.read
    return some bytes

/-- The summary of a file, in a language or that of its extension. -/
def fileAs (analyzer : Analyzer) (path : List Char) (language : Option (List Char)) :
    Except AnalysisError (Option FileSummary) :=
  match analyzer.extractor path language with
  | .error cause => .error (.lookup cause)
  | .ok extractor =>
    if analyzer.config.enables extractor.id then
      match analyzer.contents path with
      | .error cause => .error (.unreadable path cause)
      | .ok none => .ok none
      | .ok (some bytes) =>
        .ok (some ⟨String.ofList path, extractor.parse (Utf8.decodeLossy bytes)⟩)
    else .ok none

/-- The summary of a file in the language of its extension. -/
def file (analyzer : Analyzer) (path : List Char) : Except AnalysisError (Option FileSummary) :=
  analyzer.fileAs path none

/-- The summary of a file, if it has one. -/
def file? (analyzer : Analyzer) (path : List Char) : Option FileSummary :=
  match analyzer.file path with
  | .ok summary => summary
  | .error _ => none

/-- The summaries of files, sorted by the text of their paths. -/
def files (analyzer : Analyzer) (paths : List (List Char)) : List FileSummary :=
  (paths.filterMap analyzer.file?).mergeSort fun a b => a.path ≤ b.path

end Analyzer
end Outline
