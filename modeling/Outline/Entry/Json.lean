import Outline.Entry.Basic
import Outline.Json.Value

/-!
Outlines as JSON.

Each kind of entry has a writer and a reader of its fields.  A reader ignores
fields it does not know, takes a missing or `null` optional field as no value,
and refuses everything else that is missing or of another form.  An entry may
also be an array of its fields in order, of which only those may be missing
that a writer leaves out when they have no value.  Lines and columns are numbers
of 64 bits, complexities of 32.
-/

namespace Outline

/-- A count of lines, columns or entries in JSON. -/
def Json.index? : Json → Option Nat := Json.naturalBelow? (UInt64.size)

namespace Severity

def toJson (severity : Severity) : Json := .string severity.name

def ofName? : String → Option Severity
  | "error" => some .error
  | "warning" => some .warning
  | _ => none

def ofJson? (value : Json) : Option Severity := value.name?.bind ofName?

end Severity

namespace Diagnostic

def fieldNames : List String :=
  ["message", "line", "column", "severity", "code"]

def toJson (diagnostic : Diagnostic) : Json :=
  .object ([
    ("message", .string diagnostic.message),
    ("line", .natural diagnostic.line),
    ("column", .natural diagnostic.column),
    ("severity", diagnostic.severity.toJson)]
    ++ Json.present "code" .string diagnostic.code)

def ofJson? (value : Json) : Option Diagnostic := do
  let fields ← value.fields? fieldNames 4
  let message ← Json.required fields "message" Json.string?
  let line ← Json.required fields "line" Json.index?
  let column ← Json.required fields "column" Json.index?
  let severity ← Json.required fields "severity" Severity.ofJson?
  let code ← Json.maybe fields "code" Json.string?
  some ⟨message, line, column, severity, code⟩

end Diagnostic

namespace Visibility

def toJson (visibility : Visibility) : Json := .string visibility.name

def ofName? : String → Option Visibility
  | "public" => some .publicMember
  | "protected" => some .protectedMember
  | "private" => some .privateMember
  | "package" => some .packageMember
  | _ => none

def ofJson? (value : Json) : Option Visibility := value.name?.bind ofName?

end Visibility

namespace Parameter

def fieldNames : List String :=
  ["name", "type", "optional", "defaultValue"]

def toJson (parameter : Parameter) : Json :=
  .object ([
    ("name", .string parameter.name),
    ("type", .string parameter.type),
    ("optional", .bool parameter.optional)]
    ++ Json.present "defaultValue" .string parameter.defaultValue)

def ofJson? (value : Json) : Option Parameter := do
  let fields ← value.fields? fieldNames 3
  let name ← Json.required fields "name" Json.string?
  let type ← Json.required fields "type" Json.string?
  let optional ← Json.required fields "optional" Json.bool?
  let defaultValue ← Json.maybe fields "defaultValue" Json.string?
  some ⟨name, type, optional, defaultValue⟩

end Parameter

namespace NameSet

def toJson (set : NameSet) : Json := Json.ofList .string set.toList

/-- The names of a list in any order, repeated or not. -/
def ofJson? (value : Json) : Option NameSet := (Json.list? Json.string? value).map ofList

end NameSet

namespace FunctionEntry

def fieldNames : List String :=
  ["name", "parameters", "returnType", "startLine", "endLine", "complexity", "dependencies",
   "isExported", "isStatic", "isConstructor", "isAbstract", "docstring", "testCandidates",
   "receiver", "namespace"]

def toJson (entry : FunctionEntry) : Json :=
  .object ([
    ("name", .string entry.name),
    ("parameters", Json.ofList Parameter.toJson entry.parameters),
    ("returnType", Json.ofOption .string entry.returnType),
    ("startLine", .natural entry.startLine),
    ("endLine", .natural entry.endLine),
    ("complexity", .natural entry.complexity),
    ("dependencies", entry.dependencies.toJson),
    ("isExported", .bool entry.isExported),
    ("isStatic", .bool entry.isStatic),
    ("isConstructor", .bool entry.isConstructor),
    ("isAbstract", .bool entry.isAbstract),
    ("docstring", .string entry.docstring),
    ("testCandidates", Json.ofList .string entry.testCandidates)]
    ++ Json.present "receiver" .string entry.receiver
    ++ Json.present "namespace" .string entry.scope)

def ofJson? (value : Json) : Option FunctionEntry := do
  let fields ← value.fields? fieldNames 13
  let name ← Json.required fields "name" Json.string?
  let parameters ← Json.required fields "parameters" (Json.list? Parameter.ofJson?)
  let returnType ← Json.maybe fields "returnType" Json.string?
  let startLine ← Json.required fields "startLine" Json.index?
  let endLine ← Json.required fields "endLine" Json.index?
  let complexity ← Json.required fields "complexity" (Json.naturalBelow? (UInt32.size))
  let dependencies ← Json.required fields "dependencies" NameSet.ofJson?
  let isExported ← Json.required fields "isExported" Json.bool?
  let isStatic ← Json.required fields "isStatic" Json.bool?
  let isConstructor ← Json.required fields "isConstructor" Json.bool?
  let isAbstract ← Json.required fields "isAbstract" Json.bool?
  let docstring ← Json.required fields "docstring" Json.string?
  let testCandidates ← Json.required fields "testCandidates" (Json.list? Json.string?)
  let receiver ← Json.maybe fields "receiver" Json.string?
  let scope ← Json.maybe fields "namespace" Json.string?
  some ⟨name, parameters, returnType, startLine, endLine, complexity, dependencies, isExported,
    isStatic, isConstructor, isAbstract, docstring, testCandidates, receiver, scope⟩

end FunctionEntry

namespace PropertyEntry

def fieldNames : List String :=
  ["name", "type", "visibility", "isStatic", "line", "defaultValue"]

def toJson (entry : PropertyEntry) : Json :=
  .object ([
    ("name", .string entry.name),
    ("type", .string entry.type),
    ("visibility", entry.visibility.toJson),
    ("isStatic", .bool entry.isStatic),
    ("line", .natural entry.line)]
    ++ Json.present "defaultValue" .string entry.defaultValue)

def ofJson? (value : Json) : Option PropertyEntry := do
  let fields ← value.fields? fieldNames 5
  let name ← Json.required fields "name" Json.string?
  let type ← Json.required fields "type" Json.string?
  let visibility ← Json.required fields "visibility" Visibility.ofJson?
  let isStatic ← Json.required fields "isStatic" Json.bool?
  let line ← Json.required fields "line" Json.index?
  let defaultValue ← Json.maybe fields "defaultValue" Json.string?
  some ⟨name, type, visibility, isStatic, line, defaultValue⟩

end PropertyEntry

namespace ClassKind

def toJson (kind : ClassKind) : Json := .string kind.name

def ofName? : String → Option ClassKind
  | "class" => some .ordinary
  | "interface" => some .interface
  | "enum" => some .enum
  | "record" => some .record
  | "struct" => some .struct
  | "union" => some .union
  | _ => none

def ofJson? (value : Json) : Option ClassKind := value.name?.bind ofName?

end ClassKind

namespace ClassEntry

def fieldNames : List String :=
  ["name", "kind", "methods", "properties", "extends", "implements", "startLine", "endLine",
   "isExported", "isAbstract", "docstring", "namespace"]

def toJson (entry : ClassEntry) : Json :=
  .object ([
    ("name", .string entry.name),
    ("kind", entry.kind.toJson),
    ("methods", Json.ofList FunctionEntry.toJson entry.methods),
    ("properties", Json.ofList PropertyEntry.toJson entry.properties),
    ("extends", Json.ofOption .string entry.base),
    ("implements", Json.ofList .string entry.interfaces),
    ("startLine", .natural entry.startLine),
    ("endLine", .natural entry.endLine),
    ("isExported", .bool entry.isExported),
    ("isAbstract", .bool entry.isAbstract),
    ("docstring", .string entry.docstring)]
    ++ Json.present "namespace" .string entry.scope)

def ofJson? (value : Json) : Option ClassEntry := do
  let fields ← value.fields? fieldNames 11
  let name ← Json.required fields "name" Json.string?
  let kind ← Json.required fields "kind" ClassKind.ofJson?
  let methods ← Json.required fields "methods" (Json.list? FunctionEntry.ofJson?)
  let properties ← Json.required fields "properties" (Json.list? PropertyEntry.ofJson?)
  let base ← Json.maybe fields "extends" Json.string?
  let interfaces ← Json.required fields "implements" (Json.list? Json.string?)
  let startLine ← Json.required fields "startLine" Json.index?
  let endLine ← Json.required fields "endLine" Json.index?
  let isExported ← Json.required fields "isExported" Json.bool?
  let isAbstract ← Json.required fields "isAbstract" Json.bool?
  let docstring ← Json.required fields "docstring" Json.string?
  let scope ← Json.maybe fields "namespace" Json.string?
  some ⟨name, kind, methods, properties, base, interfaces, startLine, endLine, isExported,
    isAbstract, docstring, scope⟩

end ClassEntry

namespace ImportedName

def fieldNames : List String :=
  ["name", "alias", "isDefault"]

def toJson (imported : ImportedName) : Json :=
  .object [
    ("name", .string imported.name),
    ("alias", Json.ofOption .string imported.localName),
    ("isDefault", .bool imported.isDefault)]

def ofJson? (value : Json) : Option ImportedName := do
  let fields ← value.fields? fieldNames 3
  let name ← Json.required fields "name" Json.string?
  let localName ← Json.maybe fields "alias" Json.string?
  let isDefault ← Json.required fields "isDefault" Json.bool?
  some ⟨name, localName, isDefault⟩

end ImportedName

namespace ImportEntry

def fieldNames : List String :=
  ["source", "imports", "isExternal", "isStatic", "line"]

def toJson (entry : ImportEntry) : Json :=
  .object [
    ("source", .string entry.source),
    ("imports", Json.ofList ImportedName.toJson entry.names),
    ("isExternal", .bool entry.isExternal),
    ("isStatic", .bool entry.isStatic),
    ("line", .natural entry.line)]

def ofJson? (value : Json) : Option ImportEntry := do
  let fields ← value.fields? fieldNames 5
  let source ← Json.required fields "source" Json.string?
  let names ← Json.required fields "imports" (Json.list? ImportedName.ofJson?)
  let isExternal ← Json.required fields "isExternal" Json.bool?
  let isStatic ← Json.required fields "isStatic" Json.bool?
  let line ← Json.required fields "line" Json.index?
  some ⟨source, names, isExternal, isStatic, line⟩

end ImportEntry

namespace ExportKind

def toJson (kind : ExportKind) : Json := .string kind.name

def ofName? : String → Option ExportKind
  | "class" => some .classExport
  | "function" => some .functionExport
  | _ => none

def ofJson? (value : Json) : Option ExportKind := value.name?.bind ofName?

end ExportKind

namespace ExportEntry

def fieldNames : List String :=
  ["name", "kind", "line"]

def toJson (entry : ExportEntry) : Json :=
  .object [
    ("name", .string entry.name),
    ("kind", entry.kind.toJson),
    ("line", .natural entry.line)]

def ofJson? (value : Json) : Option ExportEntry := do
  let fields ← value.fields? fieldNames 3
  let name ← Json.required fields "name" Json.string?
  let kind ← Json.required fields "kind" ExportKind.ofJson?
  let line ← Json.required fields "line" Json.index?
  some ⟨name, kind, line⟩

end ExportEntry

namespace Summary

def fieldNames : List String :=
  ["language", "package", "functions", "classes", "imports", "exports", "syntaxErrors",
   "warnings"]

def toFields (summary : Summary) : List (String × Json) :=
  [("language", .string summary.language)]
    ++ Json.present "package" .string summary.package
    ++ [("functions", Json.ofList FunctionEntry.toJson summary.functions),
      ("classes", Json.ofList ClassEntry.toJson summary.classes),
      ("imports", Json.ofList ImportEntry.toJson summary.imports),
      ("exports", Json.ofList ExportEntry.toJson summary.exports),
      ("syntaxErrors", Json.ofList Diagnostic.toJson summary.syntaxErrors),
      ("warnings", Json.ofList Diagnostic.toJson summary.warnings)]

def ofFields? (fields : List (String × Json)) : Option Summary := do
  let language ← Json.required fields "language" Json.string?
  let package ← Json.maybe fields "package" Json.string?
  let functions ← Json.required fields "functions" (Json.list? FunctionEntry.ofJson?)
  let classes ← Json.required fields "classes" (Json.list? ClassEntry.ofJson?)
  let imports ← Json.required fields "imports" (Json.list? ImportEntry.ofJson?)
  let exports ← Json.required fields "exports" (Json.list? ExportEntry.ofJson?)
  let syntaxErrors ← Json.required fields "syntaxErrors" (Json.list? Diagnostic.ofJson?)
  let warnings ← Json.required fields "warnings" (Json.list? Diagnostic.ofJson?)
  some ⟨language, package, functions, classes, imports, exports, syntaxErrors, warnings⟩

def toJson (summary : Summary) : Json := .object summary.toFields

def ofJson? (value : Json) : Option Summary := (value.fields? fieldNames 8).bind ofFields?

end Summary

namespace FileSummary

/-- The path and the fields of the summary, in one object. -/
def toJson (file : FileSummary) : Json :=
  .object (("path", .string file.path) :: file.summary.toFields)

def ofJson? (value : Json) : Option FileSummary := do
  let fields ← value.object?
  let path ← Json.required fields "path" Json.string?
  let summary ← Summary.ofFields? fields
  some ⟨path, summary⟩

end FileSummary
end Outline
