import Outline.Declaration.Parameter
import Outline.Entry.NameSet

/-!
The names a body depends on: what it calls, what it constructs, the fields it
reaches through a receiver, and the members it calls by their scope.
-/

namespace Outline

/-- How a language writes dependencies. -/
structure DependencyRules where
  /-- Receivers with the operator that reaches their fields. -/
  fieldAccess : List (String × String)
  /-- Whether `Scope::member(` is a call of its own. -/
  scopedCalls : Bool
  /-- Words that are never reported. -/
  ignored : List String
  deriving DecidableEq, Repr

namespace Dependency

/-- A name in front of a parenthesis. -/
def call : Pattern := .part .name .dollarName ++ .blanks ++ .lit "("

def construction : Pattern :=
  .boundary ++ .lit "new" ++ .blanks1
    ++ .part .name (.char (fun c => Pattern.isNameStart c || c == '$')
      ++ .run0 fun c => Text.isWordChar c || c == '$' || c == '.' || c == ':')

def field (receiver operator : String) : Pattern :=
  .boundary ++ .lit receiver ++ .blanks ++ .lit operator ++ .blanks ++ .part .name .dollarName

def scopedCall : Pattern :=
  .boundary ++ .part .path .name ++ .blanks ++ .lit "::" ++ .blanks ++ .part .name .name
    ++ .blanks ++ .lit "("

/-- A constructed type without the separators it ends with. -/
def constructed (name : List Char) : List Char :=
  (name.reverse.dropWhile fun c => c == '.' || c == ':').reverse

/-- The names that the matches of a pattern give in a body. -/
def namesOf (pattern : Pattern) (body : List Char) : List (List Char) :=
  (pattern.findAll body).map (·.text .name)

/-- The names of a body that are no ignored words. -/
def plainNames (rules : DependencyRules) (body : List Char) : List String :=
  let names := namesOf call body
    ++ rules.fieldAccess.flatMap (fun (receiver, operator) => namesOf (field receiver operator) body)
    ++ (namesOf construction body).map constructed
  (names.filter fun name => !name.isEmpty && !oneOfWords rules.ignored name).map String.ofList

/-- The scoped calls of a body whose scope is no ignored word. -/
def scopedNames (rules : DependencyRules) (body : List Char) : List String :=
  if rules.scopedCalls then
    ((scopedCall.findAll body).filter fun found => !oneOfWords rules.ignored (found.text .path)).map
      fun found => String.ofList (found.text .path ++ [':', ':'] ++ found.text .name)
  else []

/-- The dependencies of a body, which must not show literals or comments. -/
def collect (rules : DependencyRules) (body : List Char) : NameSet :=
  NameSet.ofList (plainNames rules body ++ scopedNames rules body)

end Dependency
end Outline
