import Outline.Declaration.LineCheck
import Outline.Extraction.Scan

/-!
A language as an ordered list of rules.

Each rule runs a pattern over one view of the source and turns its matches into
findings.  Rules that ask which block they are in come after the rules that
find blocks.
-/

namespace Outline

/-- The view of the source that a rule reads: directives are read from the
source as it is, declarations from the masked view. -/
inductive View
  | full
  | masked
  deriving DecidableEq, Repr

/-- A pattern and what its matches tell, given what was found before. -/
structure Rule where
  view : View
  pattern : Pattern
  apply : Subject → Scan → Match → Except ExtractError (List Finding)

namespace Rule

def text (rule : Rule) (source : SourceText) : List Char :=
  match rule.view with
  | .full => source.text
  | .masked => source.masked

/-- Add what one match tells. -/
def step (rule : Rule) (subject : Subject) (scan : Scan) (found : Match) :
    Except ExtractError Scan :=
  (rule.apply subject scan found).map scan.recordAll

/-- Add what all matches of a rule tell. -/
def run (rule : Rule) (subject : Subject) (scan : Scan) : Except ExtractError Scan :=
  (rule.pattern.findAll (rule.text subject.source)).foldlM (rule.step subject) scan

end Rule

/-- The conventions of a language and the rules that recognize it. -/
structure Language where
  id : String
  extensions : List String
  aliases : List String
  maskRules : MaskRules
  dependencyRules : DependencyRules
  lineRules : LineRules
  rules : List Rule

namespace Language

def subject (language : Language) (text : List Char) : Subject :=
  ⟨SourceText.ofText language.maskRules text, language.dependencyRules⟩

/-- Run the rules in order. -/
def scan (language : Language) (subject : Subject) : Except ExtractError Scan :=
  language.rules.foldlM (fun scan rule => rule.run subject scan) .empty

/-- The findings of the line checks. -/
def hints (language : Language) (subject : Subject) : List Finding :=
  let hints := LineCheck.check language.lineRules subject.masked
  hints.errors.map .error ++ hints.warnings.map .warning

/-- The summary of a text. -/
def extract (language : Language) (text : List Char) : Except ExtractError Summary := do
  let subject := language.subject text
  let scan ← language.scan subject
  return (scan.recordAll (language.hints subject)).finish language.id

end Language
end Outline
