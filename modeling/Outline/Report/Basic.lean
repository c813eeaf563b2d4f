import Outline.Entry.Json

/-!
Reports: the summaries of files with their totals.
-/

namespace Outline

/-- Counts over files.  Methods count as functions. -/
structure Totals where
  files : Nat
  functions : Nat
  classes : Nat
  imports : Nat
  syntaxErrors : Nat
  warnings : Nat
  deriving DecidableEq, Repr

namespace Totals

/-- The sum of a count over files. -/
def sumOver (files : List FileSummary) (count : Summary → Nat) : Nat :=
  files.foldr (fun file total => count file.summary + total) 0

def ofFiles (files : List FileSummary) : Totals :=
  { files := files.length
    functions := sumOver files (·.allFunctions.length)
    classes := sumOver files (·.classes.length)
    imports := sumOver files (·.imports.length)
    syntaxErrors := sumOver files (·.syntaxErrors.length)
    warnings := sumOver files (·.warnings.length) }

def toJson (totals : Totals) : Json :=
  .object [
    ("files", .natural totals.files),
    ("functions", .natural totals.functions),
    ("classes", .natural totals.classes),
    ("imports", .natural totals.imports),
    ("syntaxErrors", .natural totals.syntaxErrors),
    ("warnings", .natural totals.warnings)]

def ofJson? (value : Json) : Option Totals := do
  let fields ← value.object?
  let files ← Json.required fields "files" Json.index?
  let functions ← Json.required fields "functions" Json.index?
  let classes ← Json.required fields "classes" Json.index?
  let imports ← Json.required fields "imports" Json.index?
  let syntaxErrors ← Json.required fields "syntaxErrors" Json.index?
  let warnings ← Json.required fields "warnings" Json.index?
  some ⟨files, functions, classes, imports, syntaxErrors, warnings⟩

end Totals

/-- The result of a run. -/
structure Report where
  version : String
  /-- The path that was asked for. -/
  path : String
  totals : Totals
  files : List FileSummary
  deriving DecidableEq, Repr

namespace Report

/-- The version of the program that makes the reports. -/
def programVersion : String := "0.1.0"

def ofFiles (path : String) (files : List FileSummary) : Report :=
  ⟨programVersion, path, .ofFiles files, files⟩

def toJson (report : Report) : Json :=
  .object [
    ("version", .string report.version),
    ("path", .string report.path),
    ("totals", report.totals.toJson),
    ("files", Json.ofList FileSummary.toJson report.files)]

def ofJson? (value : Json) : Option Report := do
  let fields ← value.object?
  let version ← Json.required fields "version" Json.string?
  let path ← Json.required fields "path" Json.string?
  let totals ← Json.required fields "totals" Totals.ofJson?
  let files ← Json.required fields "files" (Json.list? FileSummary.ofJson?)
  some ⟨version, path, totals, files⟩

end Report

/-- How a run ends, as a number for the caller. -/
def exitCode (files : List FileSummary) (failOnErrors : Bool) : Nat :=
  if failOnErrors && files.any (·.summary.hasErrors) then 1 else 0

end Outline
