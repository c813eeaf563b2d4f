import Outline.Report.Basic
import Outline.Report.Style

/-!
Reports for readers: a heading, the declarations of each file with one line
each, and the totals.
-/

namespace Outline
namespace Pretty

/-- How texts are styled: whether at all. -/
structure Palette where
  colors : Bool
  deriving DecidableEq, Repr

namespace Palette

def bold (palette : Palette) (text : String) : String :=
  Style.apply palette.colors ⟨true, false, none⟩ text

def dimmed (palette : Palette) (text : String) : String :=
  Style.apply palette.colors ⟨false, true, none⟩ text

def colored (palette : Palette) (color : Color) (text : String) : String :=
  Style.apply palette.colors ⟨false, false, some color⟩ text

def boldColored (palette : Palette) (color : Color) (text : String) : String :=
  Style.apply palette.colors ⟨true, false, some color⟩ text

end Palette

/-- The mark of a member's visibility. -/
def visibilityMark (palette : Palette) : Visibility → String
  | .publicMember => palette.colored .green "+"
  | .protectedMember => palette.colored .yellow "#"
  | .privateMember => palette.colored .red "-"
  | .packageMember => "~"

/-- A range of lines, after a space. -/
def lineRange (palette : Palette) (first last : Nat) : String :=
  palette.dimmed s!" {first}-{last}"

/-- The complexity, in a color that tells how much of it there is. -/
def complexityLabel (palette : Palette) (complexity : Nat) : String :=
  let color := if complexity ≤ 5 then Color.green else if complexity ≤ 10 then .yellow else .red
  palette.colored color s!"cx {complexity}"

def parameter (parameter : Parameter) : String :=
  if parameter.type.isEmpty then parameter.name else parameter.name ++ ": " ++ parameter.type

/-- The line of a function, without its indentation. -/
def function (palette : Palette) (entry : FunctionEntry) : String :=
  (if entry.isExported then palette.colored .green "+" else palette.colored .red "-")
    ++ " " ++ entry.qualifiedName
    ++ "(" ++ String.intercalate ", " (entry.parameters.map parameter) ++ ")"
    ++ ((entry.returnType.map (" -> " ++ ·)).getD "")
    ++ lineRange palette entry.startLine entry.endLine
    ++ "  " ++ complexityLabel palette entry.complexity ++ "\n"

def property (palette : Palette) (entry : PropertyEntry) : String :=
  "      " ++ visibilityMark palette entry.visibility ++ " " ++ entry.name ++ ": "
    ++ palette.dimmed entry.type ++ "\n"

/-- The line of a class, and those of its properties and methods. -/
def ofClass (palette : Palette) (entry : ClassEntry) : String :=
  "    " ++ palette.colored .magenta entry.kind.name ++ " " ++ palette.bold entry.name
    ++ lineRange palette entry.startLine entry.endLine
    ++ ((entry.base.map (" extends " ++ ·)).getD "")
    ++ (if entry.interfaces.isEmpty then ""
      else " implements " ++ String.intercalate ", " entry.interfaces)
    ++ (if entry.isAbstract then " " ++ palette.dimmed "abstract" else "") ++ "\n"
    ++ String.join (entry.properties.map (property palette))
    ++ String.join (entry.methods.map fun method => "      " ++ function palette method)

def severityLabel (palette : Palette) : Severity → String
  | .error => palette.colored .red "ERROR"
  | .warning => palette.colored .yellow "WARN "

def diagnostic (palette : Palette) (entry : Diagnostic) : String :=
  let line := entry.line
  let column := entry.column
  "    " ++ severityLabel palette entry.severity ++ " "
    ++ palette.dimmed s!"{line}:{column} " ++ entry.message
    ++ ((entry.code.map fun code => " " ++ palette.dimmed ("[" ++ code ++ "]")).getD "") ++ "\n"

/-- The line that counts imports; without imports there is none. -/
def imports (palette : Palette) (entries : List ImportEntry) : String :=
  if entries.isEmpty then ""
  else
    let all := entries.length
    let external := entries.countP (·.isExternal)
    let within := all - external
    "    " ++ palette.dimmed "imports" ++ s!" {all} ({external} external, {within} local)\n"

/-- The lines of a file. -/
def ofFile (palette : Palette) (file : FileSummary) : String :=
  let summary := file.summary
  "  " ++ palette.boldColored .blue file.path ++ "  " ++ palette.dimmed summary.language
    ++ ((summary.package.map fun package => "  " ++ palette.dimmed ("package " ++ package)).getD "")
    ++ "\n" ++ imports palette summary.imports
    ++ String.join (summary.classes.map (ofClass palette))
    ++ String.join (summary.functions.map fun entry => "    " ++ function palette entry)
    ++ String.join (summary.syntaxErrors.map (diagnostic palette))
    ++ String.join (summary.warnings.map (diagnostic palette))

/-- The line of the totals. -/
def ofTotals (palette : Palette) (totals : Totals) : String :=
  let ⟨files, functions, classes, _, errors, warnings⟩ := totals
  let plural := if files = 1 then "" else "s"
  "  " ++ palette.bold s!"{files} file{plural}"
    ++ s!"  {functions} functions  {classes} classes  "
    ++ (if errors = 0 then palette.colored .green "0 errors"
      else palette.colored .red s!"{errors} errors")
    ++ "  "
    ++ (if warnings = 0 then palette.dimmed "0 warnings"
      else palette.colored .yellow s!"{warnings} warnings")
    ++ "\n"

/-- The report on files below a path. -/
def report (palette : Palette) (path : String) (files : List FileSummary) : String :=
  "\n  " ++ palette.boldColored .cyan "codeshape" ++ " v" ++ Report.programVersion ++ "\n\n"
    ++ "  " ++ palette.dimmed "Parsing: " ++ path ++ "\n\n"
    ++ String.join (files.map fun file => ofFile palette file ++ "\n")
    ++ ofTotals palette (.ofFiles files) ++ "\n"

end Pretty
end Outline
