import Outline.Declaration.TestName
import Outline.Extraction.Cpp.Pattern
import Outline.Extraction.Cpp.Trailer
import Outline.Extraction.Declarator

/-!
The recognizers of C++: includes, namespaces, linkage blocks, classes, access
labels, functions and fields.
-/

namespace Outline
namespace Cpp

/-- What lines of documentation may have between them and a declaration. -/
def docSkipped : List String := ["template", "[["]

/-- Whether a word looks like a macro: capitals, digits and underscores, and no
digit in front. -/
def isCapitals (word : List Char) : Bool :=
  word.head?.any (fun c => c.isUpper || c == '_')
    && word.all fun c => c.isUpper || c.isDigit || c == '_'

/-! ## Includes, namespaces and linkage blocks -/

def findInclude (subject : Subject) (_ : Scan) (found : Match) :
    Except ExtractError (List Finding) :=
  let path := String.ofList (Text.trim (found.text .path))
  return [.imported {
    source := path
    names := [⟨path, none, false⟩]
    isExternal := found.text .mark == ['<']
    isStatic := false
    line := subject.lineOf found.start }]

def findNamespace (subject : Subject) (_ : Scan) (found : Match) :
    Except ExtractError (List Finding) := do
  if ← Statement.startsAt subject.masked found.start false then
    return [.block (found.stop - 1) (.scope ((found.part? .name).map (String.ofList ·.text)))]
  else return []

def findLinkage (_ : Subject) (_ : Scan) (found : Match) : Except ExtractError (List Finding) :=
  return [.block (found.stop - 1) .linkage]

/-! ## Classes -/

def kindOf (word : List Char) : ClassKind :=
  if word = "struct".toList then .struct
  else if word = "union".toList then .union
  else .ordinary

/-- The bases of a class, without the words that qualify inheritance. -/
def bases (text : List Char) : List String :=
  let named := (splitTopLevel ',' text).map fun base =>
    Text.join [' '] ((Text.words base).filter fun word =>
      !isWord ["public", "protected", "private", "virtual"] word)
  (named.filter (!·.isEmpty)).map String.ofList

/-- Where the statement of a class starts: at the match, or where a `typedef` in
front of it starts. -/
def classStart (masked : List Char) (start : Nat) : Except ExtractError Nat :=
  (SourceText.headTo masked start).map fun before =>
    match Text.dropTrail? "typedef".toList (Text.trimEnd before) with
    | some before => Text.width before
    | none => start

/-- Where the body of a class opens and the text that lists its bases.  A colon
that is one of two belongs to a scope. -/
def classBody? (masked : List Char) (tail : Capture) : Option (Nat × Nat) :=
  if tail.text = ['\x7b'] then some (tail.start, tail.start)
  else if Text.charAt? masked tail.stop = some ':' then none
  else (Statement.bodyOpen? masked tail.stop).map fun opening => (opening, tail.stop)

def classFindings (subject : Subject) (scan : Scan) (found : Match) (declaration name : Capture)
    (opening basesStart : Nat) : Except ExtractError (List Finding) := do
  let basesText ← subject.source.maskedPart basesStart opening
  let bases := bases basesText
  let kind := kindOf (found.text .kind)
  let visible := (scan.classAt? subject found.start).all fun (_, parent) =>
    parent.visibilityAt found.start == .publicMember
  let body ← subject.body opening
  let draft : ClassDraft := {
    entry := {
      name := String.ofList name.text
      kind
      methods := []
      properties := []
      base := bases.head?
      interfaces := bases.tail
      startLine := subject.lineOf declaration.start
      endLine := body.endLine
      isExported := visible && !scan.inAnonymousScope subject found.start
      isAbstract := false
      docstring := subject.docstring declaration.start docSkipped
      scope := scan.scopeAt subject found.start }
    opening
    close := body.close
    nested := scan.inAnyClass found.start
    defaultVisibility := if kind = .ordinary then .privateMember else .publicMember
    labels := [] }
  return [.classBody draft] ++ subject.checkTerminated body name.text declaration.start

def findClass (subject : Subject) (scan : Scan) (found : Match) :
    Except ExtractError (List Finding) :=
  match found.part? .declaration, found.part? .name, found.part? .tail with
  | some declaration, some name, some tail => do
    let start ← classStart subject.masked found.start
    if ← Statement.startsAt subject.masked start true then
      match classBody? subject.masked tail with
      | some (opening, basesStart) =>
        classFindings subject scan found declaration name opening basesStart
      | none => return []
    else return []
  | _, _, _ => return []

/-! ## Access labels -/

def accessOf (word : List Char) : Visibility :=
  if word = "public".toList then .publicMember
  else if word = "protected".toList then .protectedMember
  else .privateMember

/-- A label counts for the class whose body it stands in directly. -/
def findLabel (subject : Subject) (scan : Scan) (found : Match) :
    Except ExtractError (List Finding) :=
  if Text.charAt? subject.masked found.stop = some ':' then return []
  else
    match scan.classAt? subject found.start with
    | some (index, _) => return [.label index found.start (accessOf (found.text .kind))]
    | none => return []

/-! ## Functions -/

/-- The scopes and the last part of a qualified name, without template
arguments. -/
def splitQualified (name : List Char) : Option (List Char) × List Char :=
  let plain := templateArguments.replaceAll [] name
  let compact := Text.join [' '] (Text.words plain)
  let unscoped := Text.trim (Text.dropLeads [':', ':'] compact.length compact)
  match Text.cutLast? [':', ':'] compact with
  | some (scopes, last) =>
    if (Text.trim scopes).isEmpty then (none, unscoped)
    else (some (scopes.filter (· != ' ')), Text.trim last)
  | none => (none, unscoped)

/-- The last of some scopes. -/
def lastScope (scopes : List Char) : List Char :=
  ((Text.cutLast? [':', ':'] scopes).map (·.2)).getD scopes

/-- The return type declared in front of a name, if there is one. -/
def declaredReturn (subject : Subject) (found : Match) (name : Capture) :
    Except ExtractError (Option (List Char)) :=
  match found.part? .type with
  | some type => (subject.spelling type.start name.start).map some
  | none => return none

/-- A trailing return type without the specifiers after it. -/
def trailingReturn (subject : Subject) (range : Nat × Nat) : Except ExtractError (List Char) :=
  (subject.spelling range.1 range.2).map fun text =>
    Text.trim (Text.dropTrails "final".toList (Text.dropTrails "override".toList text))

/-- The return type of a function: the trailing one where none but `auto` is
declared, or else the declared one.  Without either, constructors, destructors
and operators have none; for any other function the last modifier, if it looks
like a macro, was the type.  The outer `none` means that there is no function. -/
def returnTypeOf (subject : Subject) (declared : Option (List Char)) (trailer : Trailer)
    (typeless : Bool) (modifiers : List (List Char)) :
    Except ExtractError (Option (Option (List Char))) :=
  match trailer.returnRange, declared with
  | some range, none => (trailingReturn subject range).map (some ∘ some)
  | some range, some type =>
    if type = "auto".toList then (trailingReturn subject range).map (some ∘ some)
    else return some (some type)
  | none, some type => return some (some type)
  | none, none =>
    if typeless then return some none
    else return (modifiers.getLast?.filter isCapitals).map some

/-- A function as far as it is known before its body is read. -/
structure Head where
  declaration : Capture
  name : List Char
  receiver : Option (List Char)
  modifiers : List (List Char)
  returnType : Option (List Char)
  isConstructor : Bool
  parametersStart : Nat
  parametersStop : Nat
  trailer : Trailer
  deriving DecidableEq, Repr

def functionFindings (subject : Subject) (scan : Scan) (found : Match) (head : Head) :
    Except ExtractError (List Finding) := do
  let owner := scan.classAt? subject found.start
  let parametersText ← subject.source.strippedPart head.parametersStart head.parametersStop
  let parameters := Parameter.ofList parameterRules parametersText
  let body? ← match head.trailer.ending with
    | .body opening => (subject.body opening).map some
    | _ => pure none
  let isStatic := head.modifiers.contains "static".toList
  let entry : FunctionEntry := {
    name := String.ofList head.name
    parameters
    returnType := head.returnType.map String.ofList
    startLine := subject.lineOf head.declaration.start
    endLine := match body?, head.trailer.ending with
      | some body, _ => body.endLine
      | none, .body stop | none, .bare stop | none, .pure stop | none, .defaulted stop =>
        subject.lineOf stop
    complexity := (body?.map (·.complexity)).getD 1
    dependencies := (body?.map (·.dependencies)).getD .empty
    isExported := match owner with
      | some (_, draft) => draft.visibilityAt found.start == .publicMember
      | none => !isStatic && !scan.inAnonymousScope subject found.start
    isStatic
    isConstructor := head.isConstructor
    isAbstract := match head.trailer.ending with
      | .bare _ | .pure _ => true
      | _ => false
    docstring := subject.docstring head.declaration.start docSkipped
    testCandidates := TestName.candidates .snake head.name parameters.length
    receiver := if owner.isSome then none else head.receiver.map String.ofList
    scope := scan.scopeAt subject found.start }
  let warnings := match body? with
    | some body => subject.checkTerminated body head.name head.declaration.start
    | none => []
  return warnings ++ match owner, head.trailer.ending with
    | some (index, _), .pure _ => [.abstractClass index, .method index entry]
    | some (index, _), _ => [.method index entry]
    | none, _ => [.function entry]

/-- Whether a function may be recorded where it stands: outside of classes only
definitions at the top level count. -/
def isFunctionHere (subject : Subject) (scan : Scan) (found : Match) (trailer : Trailer) : Bool :=
  (scan.classAt? subject found.start).isSome
    || ((match trailer.ending with
        | .body _ => true
        | _ => false)
      && scan.atTopLevel subject found.start)

/-- The name of the class a function belongs to, by its place or by its
receiver. -/
def ownerName (subject : Subject) (scan : Scan) (found : Match) (receiver : Option (List Char)) :
    Option String :=
  match scan.classAt? subject found.start with
  | some (_, draft) => some draft.entry.name
  | none => receiver.map fun scopes => String.ofList (lastScope scopes)

/-- A function whose parameters lie between two offsets and whose trailer has
been read. -/
def findHead (subject : Subject) (scan : Scan) (found : Match) (declaration nameCapture : Capture)
    (declared : Option (List Char)) (parametersStart parametersStop : Nat) (trailer : Trailer) :
    Except ExtractError (Option Head) := do
  let (receiver, name) := splitQualified nameCapture.text
  let modifiers := Text.words (found.text .modifiers)
  let isConstructor :=
    declared.isNone && ownerName subject scan found receiver == some (String.ofList name)
  let typeless := isConstructor || name.head? == some '~' || Text.startsWith name "operator".toList
  let returnType ← returnTypeOf subject declared trailer typeless modifiers
  return returnType.map fun returnType =>
    { declaration, name, receiver, modifiers, returnType, isConstructor, parametersStart,
      parametersStop, trailer }

def findFunction (subject : Subject) (scan : Scan) (found : Match) :
    Except ExtractError (List Finding) :=
  match found.part? .declaration, found.part? .name with
  | some declaration, some nameCapture => do
    let starts ← Statement.startsAt subject.masked found.start true
    if !starts || oneOfWords keywords (splitQualified nameCapture.text).2 then return []
    else
      let declared ← declaredReturn subject found nameCapture
      if (declared.bind fun type => (Text.words type).head?).any (oneOfWords nonTypes) then
        return []
      let paren := found.stop - 1
      let parameters := Delimiter.find subject.masked paren
      if parameters.terminated then
        match ← trailer? subject.masked (parameters.close + 1) with
        | none => return []
        | some trailer =>
          match ← findHead subject scan found declaration nameCapture declared (paren + 1)
              parameters.close trailer with
          | none => return []
          | some head =>
            if isFunctionHere subject scan found trailer then
              functionFindings subject scan found head
            else return []
      else return []
  | _, _ => return []

/-! ## Fields -/

/-- Whether a type and a name can be those of a field.  A type that starts with
`struct` or `enum` names one that is declared elsewhere, if a name follows. -/
def isFieldShape (typeWords : List (List Char)) (name : List Char) : Bool :=
  let elaborated := 1 < typeWords.length && typeWords.head?.any (isWord ["struct", "enum"])
  !(oneOfWords nonTypes name
    || (!elaborated && typeWords.head?.any (oneOfWords nonTypes))
    || typeWords.getLast?.any (oneOfWords nonTypes))

def findField (subject : Subject) (scan : Scan) (found : Match) :
    Except ExtractError (List Finding) :=
  match found.part? .type, found.part? .name, scan.classAt? subject found.start with
  | some type, some name, some (index, draft) => do
    let starts ← Statement.startsAt subject.masked found.start true
    if !starts || !isFieldShape (Text.words type.text) name.text then return []
    else
      let typeText ← subject.spelling type.start name.start
      let fields ← subject.declarators declaratorName name.start
      return fields.map fun (offset, fieldName, defaultValue) => .property index {
        name := String.ofList fieldName
        type := String.ofList typeText
        visibility := draft.visibilityAt found.start
        isStatic := (Text.words (found.text .modifiers)).contains "static".toList
        line := subject.lineOf offset
        defaultValue := defaultValue.map String.ofList }
  | _, _, _ => return []

/-! ## The language -/

def language : Language :=
  { id := "cpp"
    extensions := ["cpp", "cc", "cxx", "c++", "hpp", "hh", "hxx", "h", "ipp", "inl"]
    aliases := ["c++", "cplusplus", "cxx"]
    maskRules := .cpp
    dependencyRules
    lineRules
    rules := [
      ⟨.full, includePattern, findInclude⟩,
      ⟨.masked, namespacePattern, findNamespace⟩,
      ⟨.masked, linkagePattern, findLinkage⟩,
      ⟨.masked, classPattern, findClass⟩,
      ⟨.masked, accessPattern, findLabel⟩,
      ⟨.masked, functionPattern, findFunction⟩,
      ⟨.masked, fieldPattern, findField⟩] }

end Cpp
end Outline
