import Outline.Declaration.Complexity
import Outline.Declaration.Dependency
import Outline.Declaration.Docstring
import Outline.Entry.Basic
import Outline.Extraction.Statement
import Outline.Source.Basic

/-!
What has been recognized in a source so far, and the questions that the
recognizers ask of it.

A recognizer answers with findings, and `Scan.record` is the only way a finding
enters a scan: it appends and never takes anything back.
-/

namespace Outline

/-- What a brace opens. -/
inductive Block
  /-- The body of the class with an index. -/
  | classBody (index : Nat)
  /-- A namespace, with or without a name. -/
  | scope (name : Option String)
  /-- Declarations with the linkage of another language. -/
  | linkage
  deriving DecidableEq, Repr

/-- A class whose members are being collected, with the range of its body. -/
structure ClassDraft where
  entry : ClassEntry
  opening : Nat
  close : Nat
  /-- Whether it starts inside another class. -/
  nested : Bool
  defaultVisibility : Visibility
  /-- The access labels directly in the body, in the order of their offsets. -/
  labels : List (Nat × Visibility)
  deriving DecidableEq, Repr

namespace ClassDraft

/-- The visibility of a member that starts at an offset: that of the last label
before it. -/
def visibilityAt (draft : ClassDraft) (offset : Nat) : Visibility :=
  ((draft.labels.takeWhile (·.1 < offset)).getLast?.map (·.2)).getD draft.defaultVisibility

end ClassDraft

/-- One thing that a recognizer found.  Members name their class by its index. -/
inductive Finding
  | package (name : String)
  | imported (entry : ImportEntry)
  | block (opening : Nat) (block : Block)
  | classBody (draft : ClassDraft)
  | label (index offset : Nat) (visibility : Visibility)
  | abstractClass (index : Nat)
  | method (index : Nat) (entry : FunctionEntry)
  | property (index : Nat) (entry : PropertyEntry)
  | function (entry : FunctionEntry)
  | error (diagnostic : Diagnostic)
  | warning (diagnostic : Diagnostic)
  deriving DecidableEq, Repr

/-- The findings of a source, by kind. -/
structure Scan where
  package : Option String
  classes : List ClassDraft
  functions : List FunctionEntry
  imports : List ImportEntry
  errors : List Diagnostic
  warnings : List Diagnostic
  /-- What the braces at some offsets open, the latest finding first. -/
  blocks : List (Nat × Block)
  deriving DecidableEq, Repr

/-- A source with the conventions of its language for dependencies. -/
structure Subject where
  source : SourceText
  dependencies : DependencyRules
  deriving Repr

/-- The body between a brace and its match. -/
structure Body where
  close : Nat
  terminated : Bool
  endLine : Nat
  complexity : Nat
  dependencies : NameSet
  deriving DecidableEq, Repr

namespace Subject

def masked (subject : Subject) : List Char := subject.source.masked

def lineOf (subject : Subject) (offset : Nat) : Nat := subject.source.lineOf offset

/-- The documentation of the declaration that starts at an offset. -/
def docstring (subject : Subject) (offset : Nat) (skipped : List String) : String :=
  String.ofList (Docstring.find subject.source.lines (subject.lineOf offset) skipped)

/-- A part of the source with its literals, on one line. -/
def spelling (subject : Subject) (start stop : Nat) : Except ExtractError (List Char) :=
  (subject.source.strippedPart start stop).map Text.normalizeSpace

/-- The body that opens at an offset. -/
def body (subject : Subject) (opening : Nat) : Except ExtractError Body := do
  let found := Delimiter.find subject.masked opening
  let text ← subject.source.maskedPart opening (min (found.close + 1) (Text.width subject.masked))
  return {
    close := found.close
    terminated := found.terminated
    endLine := subject.lineOf found.close
    complexity := complexity text
    dependencies := Dependency.collect subject.dependencies text }

/-- The code of the warning about a body that the source leaves open. -/
def unterminatedCode : String := "UNTERMINATED_BLOCK"

/-- The warning about a declaration whose body the source leaves open, if it
does. -/
def checkTerminated (subject : Subject) (body : Body) (name : List Char) (offset : Nat) :
    List Finding :=
  if body.terminated then []
  else
    [.warning {
      message := "block of '" ++ String.ofList name ++ "' is not closed before end of input"
      line := subject.lineOf offset
      column := subject.source.columnOf offset
      severity := .warning
      code := some unterminatedCode }]

end Subject

namespace Scan

def empty : Scan := ⟨none, [], [], [], [], [], []⟩

def record (scan : Scan) : Finding → Scan
  | .package name => { scan with package := some name }
  | .imported entry => { scan with imports := scan.imports ++ [entry] }
  | .block opening block => { scan with blocks := (opening, block) :: scan.blocks }
  | .classBody draft =>
    { scan with
      classes := scan.classes ++ [draft]
      blocks := (draft.opening, .classBody scan.classes.length) :: scan.blocks }
  | .label index offset visibility =>
    { scan with classes := scan.classes.modify index fun draft =>
        { draft with labels := draft.labels ++ [(offset, visibility)] } }
  | .abstractClass index =>
    { scan with classes := scan.classes.modify index fun draft =>
        { draft with entry := { draft.entry with isAbstract := true } } }
  | .method index entry =>
    { scan with classes := scan.classes.modify index fun draft =>
        { draft with entry := { draft.entry with methods := draft.entry.methods ++ [entry] } } }
  | .property index entry =>
    { scan with classes := scan.classes.modify index fun draft =>
        { draft with entry := { draft.entry with properties := draft.entry.properties ++ [entry] } } }
  | .function entry => { scan with functions := scan.functions ++ [entry] }
  | .error diagnostic => { scan with errors := scan.errors ++ [diagnostic] }
  | .warning diagnostic => { scan with warnings := scan.warnings ++ [diagnostic] }

def recordAll (scan : Scan) (findings : List Finding) : Scan := findings.foldl record scan

/-- What the brace at an offset opens, as far as it was recognized. -/
def blockAt? (scan : Scan) (opening : Nat) : Option Block := scan.blocks.lookup opening

/-- The class whose body directly contains an offset. -/
def classAt? (scan : Scan) (subject : Subject) (offset : Nat) : Option (Nat × ClassDraft) :=
  match (subject.source.braces.enclosingOpen offset).bind scan.blockAt? with
  | some (.classBody index) => (scan.classes[index]?).map fun draft => (index, draft)
  | _ => none

/-- Whether an offset lies in the range of a recognized class. -/
def inAnyClass (scan : Scan) (offset : Nat) : Bool :=
  scan.classes.any fun draft => draft.opening ≤ offset && offset ≤ draft.close

/-- Whether an offset is outside of every class, and directly in the file, in a
namespace or in a linkage block. -/
def atTopLevel (scan : Scan) (subject : Subject) (offset : Nat) : Bool :=
  !scan.inAnyClass offset
    && match subject.source.braces.enclosingOpen offset with
      | none => true
      | some opening =>
        match scan.blockAt? opening with
        | some (.scope _) | some .linkage => true
        | _ => false

/-- The namespaces around an offset, from the innermost outward. -/
def scopesAt (scan : Scan) (subject : Subject) (offset : Nat) : List (Option String) :=
  (subject.source.braces.enclosingChain offset).filterMap fun opening =>
    match scan.blockAt? opening with
    | some (.scope name) => some name
    | _ => none

/-- The named namespaces around an offset, joined from the outermost inward, or
else the package. -/
def scopeAt (scan : Scan) (subject : Subject) (offset : Nat) : Option String :=
  match (scan.scopesAt subject offset).filterMap id with
  | [] => scan.package
  | names => some (String.intercalate "::" names.reverse)

/-- Whether some namespace around an offset has no name. -/
def inAnonymousScope (scan : Scan) (subject : Subject) (offset : Nat) : Bool :=
  (scan.scopesAt subject offset).any Option.isNone

/-! ## The summary of a scan -/

def exportOfClass? (draft : ClassDraft) : Option ExportEntry :=
  if draft.entry.isExported && !draft.nested then
    some ⟨draft.entry.name, .classExport, draft.entry.startLine⟩
  else none

def exportOfFunction? (entry : FunctionEntry) : Option ExportEntry :=
  if entry.isExported then some ⟨entry.qualifiedName, .functionExport, entry.startLine⟩ else none

/-- The class of a draft, its members in the order of their lines. -/
def finishClass (draft : ClassDraft) : ClassEntry :=
  { draft.entry with
    methods := draft.entry.methods.mergeSort fun a b => a.startLine ≤ b.startLine
    properties := draft.entry.properties.mergeSort fun a b => a.line ≤ b.line }

/-- Whether a diagnostic comes no later than another one. -/
def diagnosticLe (a b : Diagnostic) : Bool :=
  a.line < b.line || (a.line == b.line && a.column ≤ b.column)

/-- Assemble the summary.  Everything is put in the order of the source, what
shares a line in the order it was found; classes and imports keep the order
they were found in. -/
def finish (scan : Scan) (language : String) : Summary :=
  let functions := scan.functions.mergeSort fun a b => a.startLine ≤ b.startLine
  let exports :=
    scan.classes.filterMap exportOfClass? ++ functions.filterMap exportOfFunction?
  { language
    package := scan.package
    functions
    classes := scan.classes.map finishClass
    imports := scan.imports
    exports := exports.mergeSort fun a b => a.line ≤ b.line
    syntaxErrors := scan.errors.mergeSort diagnosticLe
    warnings := scan.warnings.mergeSort diagnosticLe }

end Scan
end Outline
