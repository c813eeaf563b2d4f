import Outline.Config.Basic
import Outline.Entry.Json

/-!
Configurations as JSON.

A field that is missing has its standard value, and `null` is no value of a
field.  A list stands for the object whose first fields have the items of the
list as their values.
-/

namespace Outline
namespace Config

/-- The fields of a configuration, in order. -/
def fieldNames : List String :=
  ["max_file_bytes", "excluded_paths", "languages", "parallel", "options"]

def optionNames : List String := ["verbose"]

def optionsToJson (config : Config) : Json := .object [("verbose", .bool config.verbose)]

def toJson (config : Config) : Json :=
  .object [
    ("max_file_bytes", .natural config.maxFileBytes),
    ("excluded_paths", Json.ofList .string config.excludedPaths),
    ("languages", Json.ofList .string config.languages),
    ("parallel", .bool config.parallel),
    ("options", config.optionsToJson)]

/-- The value of a field that may be missing. -/
def fieldOr {α : Type} (fields : List (String × Json)) (name : String) (read : Json → Option α)
    (standard : α) : Option α :=
  match Json.field? name fields with
  | none => some standard
  | some value => read value

/-- The one option. -/
def verboseOfJson? (value : Json) : Option Bool := do
  let fields ← value.fields? optionNames 0
  fieldOr fields "verbose" Json.bool? standard.verbose

def ofFields? (fields : List (String × Json)) : Option Config := do
  let maxFileBytes ← fieldOr fields "max_file_bytes" Json.index? standard.maxFileBytes
  let excludedPaths ←
    fieldOr fields "excluded_paths" (Json.list? Json.string?) standard.excludedPaths
  let languages ← fieldOr fields "languages" (Json.list? Json.string?) standard.languages
  let parallel ← fieldOr fields "parallel" Json.bool? standard.parallel
  let verbose ← fieldOr fields "options" verboseOfJson? standard.verbose
  some ⟨maxFileBytes, excludedPaths, languages, parallel, verbose⟩

/-- The configuration a value stands for; `null` is the standard one. -/
def ofJson? : Json → Option Config
  | .null => some standard
  | value => (value.fields? fieldNames 0).bind ofFields?

end Config
end Outline
