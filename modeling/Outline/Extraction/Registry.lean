import Outline.Extraction.Cpp.Rule
import Outline.Extraction.Java.Rule
import Outline.Files.Path
import Outline.Text.Quoted

/-!
Extractors, and the registry that finds one by the name of a language or by the
extension of a file.
-/

namespace Outline

/-- The extraction of summaries for one language. -/
structure Extractor where
  id : String
  /-- The extensions of its files, without a dot. -/
  extensions : List String
  /-- Further names of the language. -/
  aliases : List String
  extract : List Char → Except ExtractError Summary

namespace Extractor

def ofLanguage (language : Language) : Extractor :=
  ⟨language.id, language.extensions, language.aliases, language.extract⟩

/-- The summary of a text.  A failed extraction gives a summary that reports the
failure and nothing else. -/
def parse (extractor : Extractor) (text : List Char) : Summary :=
  match extractor.extract text with
  | .ok summary => summary
  | .error cause => .failure extractor.id cause.message

/-- A name in lower case; only ASCII letters have one. -/
def lower (name : List Char) : List Char := name.map Char.toLower

/-- Whether an extension, without its dot, is one of the extractor's. -/
def handles (extractor : Extractor) (extension : List Char) : Bool :=
  extractor.extensions.any fun known => lower known.toList == lower extension

/-- The id and the aliases. -/
def names (extractor : Extractor) : List String := extractor.id :: extractor.aliases

end Extractor

/-- Why no extractor is found. -/
inductive LookupError
  | unsupportedLanguage (language : String)
  | unsupportedExtension (extension : String)
  deriving DecidableEq, Repr

namespace LookupError

def message : LookupError → String
  | .unsupportedLanguage language => "unsupported language: " ++ Text.quoted language
  | .unsupportedExtension extension =>
    "no extractor for file extension " ++ Text.quoted extension

end LookupError

/-- The registered extractors in order, and what their names and extensions, in
lower case, stand for, the latest registration first. -/
structure Registry where
  extractors : List Extractor
  byName : List (List Char × Extractor)
  byExtension : List (List Char × Extractor)

namespace Registry

def empty : Registry := ⟨[], [], []⟩

/-- Add an extractor.  It takes over the names and extensions it shares with
earlier ones. -/
def register (registry : Registry) (extractor : Extractor) : Registry :=
  { extractors := registry.extractors ++ [extractor]
    byName := extractor.names.map (fun name => (Extractor.lower name.toList, extractor))
      ++ registry.byName
    byExtension := extractor.extensions.map (fun extension =>
      (Extractor.lower extension.toList, extractor)) ++ registry.byExtension }

def java : Extractor := .ofLanguage Java.language

def cpp : Extractor := .ofLanguage Cpp.language

/-- The registry of the languages that are built in. -/
def builtIn : Registry := (empty.register java).register cpp

/-- The extractor for a language, by id or alias in any case. -/
def get (registry : Registry) (language : List Char) : Except LookupError Extractor :=
  match registry.byName.lookup (Extractor.lower (Text.trim language)) with
  | some extractor => .ok extractor
  | none => .error (.unsupportedLanguage (String.ofList language))

/-- The extractor for an extension, with or without leading dots. -/
def forExtension (registry : Registry) (extension : List Char) : Except LookupError Extractor :=
  match registry.byExtension.lookup (Extractor.lower (extension.dropWhile (· == '.'))) with
  | some extractor => .ok extractor
  | none => .error (.unsupportedExtension (String.ofList extension))

/-- The extractor for the extension of a path. -/
def forPath (registry : Registry) (path : List Char) : Except LookupError Extractor :=
  registry.forExtension ((Path.extension? path).getD [])

/-- The summary of a text in a language. -/
def parse (registry : Registry) (language text : List Char) : Except LookupError Summary :=
  (registry.get language).map (·.parse text)

/-- The ids of the extractors, in the order of their registration. -/
def languages (registry : Registry) : List String := registry.extractors.map (·.id)

def isEmpty (registry : Registry) : Bool := registry.extractors.isEmpty

/-- The registry as debugging output shows it. -/
def describe (registry : Registry) : String :=
  "ExtractorRegistry \x7b languages: ["
    ++ String.intercalate ", " (registry.languages.map Text.quoted) ++ "] \x7d"

end Registry
end Outline
