import Outline.Entry.NameSet

/-!
The outline of a source file: its functions, classes, imports, exports and
diagnostics.

Lines and columns count from one.  Names and types are kept as the source
spells them, with runs of blanks reduced to one space in types.
-/

namespace Outline

inductive Severity
  | error
  | warning
  deriving DecidableEq, Repr

namespace Severity

def name : Severity → String
  | .error => "error"
  | .warning => "warning"

end Severity

/-- A hint about the syntax, or the report of a failed extraction. -/
structure Diagnostic where
  message : String
  line : Nat
  column : Nat
  severity : Severity
  code : Option String
  deriving DecidableEq, Repr

/-- Who may use a member.  A Java member without a modifier is visible in its
package. -/
inductive Visibility
  | publicMember
  | protectedMember
  | privateMember
  | packageMember
  deriving DecidableEq, Repr

namespace Visibility

def name : Visibility → String
  | .publicMember => "public"
  | .protectedMember => "protected"
  | .privateMember => "private"
  | .packageMember => "package"

end Visibility

structure Parameter where
  name : String
  type : String
  optional : Bool
  defaultValue : Option String
  deriving DecidableEq, Repr

/-- A function, a method or a constructor. -/
structure FunctionEntry where
  name : String
  parameters : List Parameter
  /-- Constructors and destructors have none. -/
  returnType : Option String
  startLine : Nat
  endLine : Nat
  complexity : Nat
  dependencies : NameSet
  isExported : Bool
  isStatic : Bool
  isConstructor : Bool
  /-- Declared without a body. -/
  isAbstract : Bool
  docstring : String
  testCandidates : List String
  /-- The type that owns a definition made outside of it. -/
  receiver : Option String
  scope : Option String
  deriving DecidableEq, Repr

namespace FunctionEntry

/-- The name with the receiver in front, when there is one. -/
def qualifiedName (entry : FunctionEntry) : String :=
  match entry.receiver with
  | some receiver => receiver ++ "::" ++ entry.name
  | none => entry.name

def lineCount (entry : FunctionEntry) : Nat := entry.endLine - entry.startLine + 1

end FunctionEntry

/-- A field or an enum constant. -/
structure PropertyEntry where
  name : String
  type : String
  visibility : Visibility
  isStatic : Bool
  line : Nat
  defaultValue : Option String
  deriving DecidableEq, Repr

inductive ClassKind
  /-- Declared with the word `class`. -/
  | ordinary
  | interface
  | enum
  | record
  | struct
  | union
  deriving DecidableEq, Repr

namespace ClassKind

def name : ClassKind → String
  | .ordinary => "class"
  | .interface => "interface"
  | .enum => "enum"
  | .record => "record"
  | .struct => "struct"
  | .union => "union"

end ClassKind

structure ClassEntry where
  name : String
  kind : ClassKind
  methods : List FunctionEntry
  properties : List PropertyEntry
  base : Option String
  interfaces : List String
  startLine : Nat
  endLine : Nat
  isExported : Bool
  isAbstract : Bool
  docstring : String
  scope : Option String
  deriving DecidableEq, Repr

namespace ClassEntry

def findMethod? (entry : ClassEntry) (name : String) : Option FunctionEntry :=
  entry.methods.find? (·.name == name)

end ClassEntry

structure ImportedName where
  name : String
  /-- The name it goes by in the file, where that is another one. -/
  localName : Option String
  isDefault : Bool
  deriving DecidableEq, Repr

structure ImportEntry where
  source : String
  names : List ImportedName
  isExternal : Bool
  isStatic : Bool
  line : Nat
  deriving DecidableEq, Repr

inductive ExportKind
  | classExport
  | functionExport
  deriving DecidableEq, Repr

namespace ExportKind

def name : ExportKind → String
  | .classExport => "class"
  | .functionExport => "function"

end ExportKind

structure ExportEntry where
  name : String
  kind : ExportKind
  line : Nat
  deriving DecidableEq, Repr

/-- Everything found in one source file. -/
structure Summary where
  language : String
  package : Option String
  functions : List FunctionEntry
  classes : List ClassEntry
  imports : List ImportEntry
  exports : List ExportEntry
  syntaxErrors : List Diagnostic
  warnings : List Diagnostic
  deriving DecidableEq, Repr

namespace Summary

def empty (language : String) : Summary :=
  { language, package := none, functions := [], classes := [], imports := [], exports := [],
    syntaxErrors := [], warnings := [] }

/-- The code of the one diagnostic of a failed extraction. -/
def parseErrorCode : String := "PARSE_ERROR"

/-- The summary of a file whose extraction failed. -/
def failure (language message : String) : Summary :=
  { empty language with syntaxErrors := [⟨message, 1, 1, .error, some parseErrorCode⟩] }

def isFailure (summary : Summary) : Bool :=
  summary.syntaxErrors.any (·.code == some parseErrorCode)

/-- The functions at the top level, then the methods class by class. -/
def allFunctions (summary : Summary) : List FunctionEntry :=
  summary.functions ++ summary.classes.flatMap (·.methods)

def findFunction? (summary : Summary) (name : String) : Option FunctionEntry :=
  summary.functions.find? (·.name == name)

def findClass? (summary : Summary) (name : String) : Option ClassEntry :=
  summary.classes.find? (·.name == name)

def totalComplexity (summary : Summary) : Nat :=
  summary.allFunctions.foldr (fun entry total => entry.complexity + total) 0

def hasErrors (summary : Summary) : Bool := !summary.syntaxErrors.isEmpty

end Summary

/-- The summary of a file and the path it was read from. -/
structure FileSummary where
  path : String
  summary : Summary
  deriving DecidableEq, Repr

end Outline
