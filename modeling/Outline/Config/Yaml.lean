import Outline.Config.Json
import Outline.Yaml.Document

/-!
Configurations as YAML documents.

A document is a map with the field names of the JSON form, or a list that gives
the first fields by position.  Fields that are missing have their standard
values, other fields are ignored, and a field must not be given twice.  A list
or map that is left out is empty.
-/

namespace Outline
namespace Config

open Yaml (Node)

/-! ## Scalars -/

/-- The number that digits of a base stand for. -/
def numeral? (base : Nat) (digits : List Char) : Option Nat :=
  if digits.isEmpty then none
  else
    digits.foldlM (fun value c => (Json.hexValue? c).bind fun digit =>
      if digit < base then some (value * base + digit) else none) 0

/-- A natural number, in decimal without leading zeros, or in another base that
is named in front of it. -/
def natural? (text : List Char) : Option Nat :=
  let digits :=
    match text with
    | '+' :: rest => rest
    | _ => text
  match digits with
  | '0' :: 'x' :: rest => numeral? 16 rest
  | '0' :: 'o' :: rest => numeral? 8 rest
  | '0' :: 'b' :: rest => numeral? 2 rest
  | '0' :: _ :: _ => none
  | digits => numeral? 10 digits

def truth? (text : List Char) : Option Bool :=
  if ["true", "True", "TRUE"].contains (String.ofList text) then some true
  else if ["false", "False", "FALSE"].contains (String.ofList text) then some false
  else none

/-- The text of a scalar that may stand for something other than a text: of a
plain one, and of a literal one with a tag that says so. -/
def bareText? (tag : String) : Node → Option (List Char)
  | .scalar _ .plain _ text => some text
  | .scalar _ .literal (some actual) text =>
    if actual = Yaml.tagOf tag then some text else none
  | _ => none

/-- A size in bytes, which has 64 bits. -/
def sizeOfNode? (node : Node) : Option Nat := do
  let size ← natural? (← bareText? "int" node)
  if size < UInt64.size then some size else none

def flagOfNode? (node : Node) : Option Bool := (bareText? "bool" node).bind truth?

/-- A text; every scalar is one. -/
def textOfNode? : Node → Option String
  | .scalar _ _ _ text => some (String.ofList text)
  | _ => none

/-! ## Collections -/

/-- The items of a list, in full. -/
def textsOfNode? (document : Node) : Node → Option (List String)
  | .sequence _ items => items.mapM fun item => (document.resolve item).bind textOfNode?
  | .scalar _ .plain _ [] => some []
  | _ => none

/-- The fields of a map, or of a list that gives them by position. -/
def fieldsOfNode? (document : Node) (names : List String) : Node → Option (List (String × Node))
  | .mapping _ fields => fields.mapM fun (key, value) => do
    let name ← textOfNode? (← document.resolve key)
    some (name, value)
  | .sequence _ items => if items.length ≤ names.length then some (names.zip items) else none
  | .scalar _ .plain _ [] => some []
  | _ => none

/-- The value of a field that may be missing, but is not given twice. -/
def nodeFieldOr {α : Type} (document : Node) (fields : List (String × Node)) (name : String)
    (read : Node → Option α) (standard : α) : Option α :=
  match fields.filter (·.1 == name) with
  | [] => some standard
  | [(_, value)] => (document.resolve value).bind read
  | _ => none

def verboseOfNode? (document value : Node) : Option Bool := do
  let fields ← fieldsOfNode? document optionNames value
  nodeFieldOr document fields "verbose" flagOfNode? standard.verbose

def ofDocument? (document : Node) : Option Config := do
  let fields ← fieldsOfNode? document fieldNames document
  let maxFileBytes ← nodeFieldOr document fields "max_file_bytes" sizeOfNode? standard.maxFileBytes
  let excludedPaths ←
    nodeFieldOr document fields "excluded_paths" (textsOfNode? document) standard.excludedPaths
  let languages ← nodeFieldOr document fields "languages" (textsOfNode? document) standard.languages
  let parallel ← nodeFieldOr document fields "parallel" flagOfNode? standard.parallel
  let verbose ← nodeFieldOr document fields "options" (verboseOfNode? document) standard.verbose
  some ⟨maxFileBytes, excludedPaths, languages, parallel, verbose⟩

/-- The configuration that a text holds. -/
def parse? (text : List Char) : Option Config := (Yaml.parse? text).bind ofDocument?

end Config
end Outline
