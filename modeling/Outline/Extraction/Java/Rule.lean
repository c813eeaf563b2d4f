import Outline.Declaration.TestName
import Outline.Extraction.Declarator
import Outline.Extraction.Java.Pattern

/-!
The recognizers of Java: packages, imports, types, methods and fields.
-/

namespace Outline
namespace Java

/-- Words that lines of documentation may have between them and a declaration. -/
def docSkipped : List String := ["@"]

/-- The path of an import that does not belong to the project: one of a
platform package, or one without a package. -/
def isExternalImport (path : List Char) : Bool :=
  !path.contains '.' || platformPackages.any fun package =>
    match Text.dropLead? package.toList path with
    | some rest => rest.isEmpty || rest.head? == some '.'
    | none => false

/-- The modifiers of a match. -/
def modifiersOf (found : Match) : List (List Char) := Text.words (found.text .modifiers)

def hasModifier (modifiers : List (List Char)) (word : String) : Bool :=
  modifiers.contains word.toList

/-- The visibility that the modifiers state. -/
def statedVisibility? (modifiers : List (List Char)) : Option Visibility :=
  if hasModifier modifiers "public" then some .publicMember
  else if hasModifier modifiers "protected" then some .protectedMember
  else if hasModifier modifiers "private" then some .privateMember
  else none

/-! ## Packages and imports -/

/-- The first package that is declared counts. -/
def findPackage (subject : Subject) (scan : Scan) (found : Match) :
    Except ExtractError (List Finding) := do
  let starts ← Statement.startsAt subject.masked found.start false
  if scan.package.isNone && starts then
    return [.package (String.ofList (found.text .path))]
  else return []

/-- The name that an import without a wildcard brings into scope. -/
def lastSegment (path : List Char) : List Char :=
  (path.reverse.takeWhile (· != '.')).reverse

/-- An import counts unless its line is blank in the masked view. -/
def findImport (subject : Subject) (_ : Scan) (found : Match) :
    Except ExtractError (List Finding) := do
  let live ← SourceText.tailFrom subject.masked found.start
  if Text.startsWith (Text.trimStart live) "import".toList then
    let path := found.text .path
    let name := if (found.part? .tail).isSome then ['*'] else lastSegment path
    return [.imported {
      source := String.ofList path
      names := [⟨String.ofList name, none, false⟩]
      isExternal := isExternalImport path
      isStatic := (found.part? .mark).isSome
      line := subject.lineOf found.start }]
  else return []

/-! ## Types -/

def kindOf (word : List Char) : ClassKind :=
  if word = "interface".toList ∨ word = "@interface".toList then .interface
  else if word = "enum".toList then .enum
  else if word = "record".toList then .record
  else .ordinary

/-- The clauses of a header: each keyword with the types up to the next one. -/
def clausesFrom (header : List Char) :
    List Capture → Except ExtractError (List (List Char × List (List Char)))
  | [] => return []
  | keyword :: rest => do
    let stop := (rest.head?.map (·.start)).getD (Text.width header)
    let text ← match Text.slice? header keyword.stop stop with
      | some text => pure text
      | none => SourceText.crash keyword.stop
    let types := (splitTopLevel ',' text).map Text.normalizeSpace
    return (keyword.text, types.filter (!·.isEmpty)) :: (← clausesFrom header rest)

def clauses (header : List Char) : Except ExtractError (List (List Char × List (List Char))) :=
  clausesFrom header ((clausePattern.findAll header).filterMap (·.part? .kind))

/-- What a header says about supertypes: the last base it extends, and the
interfaces.  An interface extends interfaces. -/
def supertypes (kind : ClassKind) (header : List Char) :
    Except ExtractError (Option String × List String) :=
  (clauses header).map fun clauses =>
    clauses.foldl (fun (base, interfaces) (keyword, types) =>
        let types := types.map String.ofList
        if keyword = "implements".toList ∨ (keyword = "extends".toList ∧ kind = .interface) then
          (base, interfaces ++ types)
        else if keyword = "extends".toList then (types.head?, interfaces)
        else (base, interfaces))
      (none, [])

/-- Where the clauses of a header start, after type parameters and record
components, and the range of the components. -/
def headerStart (masked : List Char) (kind : ClassKind) (nameStop : Nat) :
    Nat × Option (Nat × Nat) :=
  let cursor := Text.skipBlanks masked nameStop
  let cursor :=
    if Text.charAt? masked cursor = some '<' then
      Text.skipBlanks masked ((Delimiter.find masked cursor).close + 1)
    else cursor
  if kind = .record ∧ Text.charAt? masked cursor = some '(' then
    let close := (Delimiter.find masked cursor).close
    (close + 1, some (cursor + 1, close))
  else (cursor, none)

/-- The components of a record as fields of the class with an index. -/
def recordComponents (subject : Subject) (index : Nat) :
    Option (Nat × Nat) → Except ExtractError (List Finding)
  | none => return []
  | some (start, stop) => do
    let text ← subject.source.strippedPart start stop
    let line := subject.lineOf start
    let named := (Parameter.ofList parameterRules text).filter (!·.name.isEmpty)
    return named.map fun component => .property index {
      name := component.name
      type := component.type
      visibility := .privateMember
      isStatic := false
      line
      defaultValue := none }

/-- The constants at the head of an enum body, as fields of the enum's own type. -/
def enumConstants (subject : Subject) (index opening : Nat) (enumName : List Char) :
    Except ExtractError (List Finding) := do
  let start := opening + 1
  let list ← subject.source.maskedPart start (Statement.endAt subject.masked start)
  return (piecesWithOffsets start (splitTopLevel ',' list)).filterMap fun (offset, piece) =>
    ((leadingName.find? piece).bind (·.part? .name)).map fun name => .property index {
      name := String.ofList name.text
      type := String.ofList enumName
      visibility := .publicMember
      isStatic := true
      line := subject.lineOf (offset + name.start)
      defaultValue := none }

/-- A type whose body opens at an offset. -/
def typeFindings (subject : Subject) (scan : Scan) (found : Match) (declaration name : Capture)
    (opening : Nat) : Except ExtractError (List Finding) := do
  let kind := kindOf (found.text .kind)
  let modifiers := modifiersOf found
  let (cursor, components) := headerStart subject.masked kind name.stop
  let header ← subject.source.maskedPart (min cursor opening) opening
  let (base, interfaces) ← supertypes kind header
  let inInterface := (scan.classAt? subject found.start).any fun (_, draft) =>
    draft.entry.kind == .interface
  let body ← subject.body opening
  let draft : ClassDraft := {
    entry := {
      name := String.ofList name.text
      kind
      methods := []
      properties := []
      base
      interfaces
      startLine := subject.lineOf declaration.start
      endLine := body.endLine
      isExported := hasModifier modifiers "public"
        || (inInterface && !hasModifier modifiers "private")
      isAbstract := hasModifier modifiers "abstract" || kind == .interface
      docstring := subject.docstring declaration.start docSkipped
      scope := scan.package }
    opening
    close := body.close
    nested := scan.inAnyClass found.start
    defaultVisibility := if kind = .interface then .publicMember else .packageMember
    labels := [] }
  let index := scan.classes.length
  let components ← recordComponents subject index components
  let constants ← if kind = .enum then enumConstants subject index opening name.text else pure []
  return [.classBody draft] ++ subject.checkTerminated body name.text declaration.start
    ++ components ++ constants

def findType (subject : Subject) (scan : Scan) (found : Match) :
    Except ExtractError (List Finding) :=
  match found.part? .declaration, found.part? .name with
  | some declaration, some name => do
    if ← Statement.startsAt subject.masked found.start false then
      match Statement.bodyOpen? subject.masked name.stop with
      | some opening => typeFindings subject scan found declaration name opening
      | none => return []
    else return []
  | _, _ => return []

/-! ## Methods -/

/-- What follows the parameters of a method: a body, or the end of a
declaration. -/
inductive Trailer
  | body (opening : Nat)
  | declaration (stop : Nat)
  deriving DecidableEq, Repr

/-- Read what follows the parameters, after a `throws` clause or the default of
an annotation element. -/
def trailer? (masked : List Char) (start : Nat) : Except ExtractError (Option Trailer) := do
  let start := Text.skipBlanks masked start
  let rest ← SourceText.tailFrom masked start
  let stop :=
    if Text.startsWith rest "throws".toList || Text.startsWith rest "default".toList then
      (Text.find? ['\x7b', ';'] rest).map (start + ·)
    else some start
  return stop.bind fun stop =>
    match Text.charAt? masked stop with
    | some '\x7b' => some (.body stop)
    | some ';' => some (.declaration stop)
    | _ => none

/-- The return type of a method; a constructor has none. -/
def declaredReturn (subject : Subject) (found : Match) :
    Except ExtractError (Option (List Char)) :=
  match found.part? .type with
  | some type => (subject.spelling type.start type.stop).map some
  | none => return none

/-- A method with its parameters between two offsets. -/
def methodFindings (subject : Subject) (scan : Scan) (found : Match) (declaration name : Capture)
    (parametersStart parametersStop : Nat) (trailer : Trailer) :
    Except ExtractError (List Finding) := do
  let owner := scan.classAt? subject found.start
  let modifiers := modifiersOf found
  let returnType ← declaredReturn subject found
  let parametersText ← subject.source.strippedPart parametersStart parametersStop
  let parameters := Parameter.ofList parameterRules parametersText
  let body? ← match trailer with
    | .body opening => (subject.body opening).map some
    | .declaration _ => pure none
  let visibility := (statedVisibility? modifiers).getD
    ((owner.map fun (_, draft) => draft.defaultVisibility).getD .packageMember)
  let entry : FunctionEntry := {
    name := String.ofList name.text
    parameters
    returnType := returnType.map String.ofList
    startLine := subject.lineOf declaration.start
    endLine := match trailer, body? with
      | _, some body => body.endLine
      | .declaration stop, none | .body stop, none => subject.lineOf stop
    complexity := (body?.map (·.complexity)).getD 1
    dependencies := (body?.map (·.dependencies)).getD .empty
    isExported := visibility == .publicMember
    isStatic := hasModifier modifiers "static"
    isConstructor := (found.part? .type).isNone
    isAbstract := body?.isNone
    docstring := subject.docstring declaration.start docSkipped
    testCandidates := TestName.candidates .camel name.text parameters.length
    receiver := none
    scope := scan.scopeAt subject found.start }
  let warnings := match body? with
    | some body => subject.checkTerminated body name.text declaration.start
    | none => []
  return warnings ++ [match owner with
    | some (index, _) => .method index entry
    | none => .function entry]

/-- Whether a match may be a method where it stands: a constructor is named
like its class, and outside of classes only definitions at the top level count. -/
def isMethodHere (subject : Subject) (scan : Scan) (found : Match) (name : Capture)
    (trailer : Trailer) : Bool :=
  match scan.classAt? subject found.start with
  | some (_, draft) =>
    (found.part? .type).isSome || draft.entry.name == String.ofList name.text
  | none =>
    (found.part? .type).isSome
      && (match trailer with
        | .body _ => true
        | .declaration _ => false)
      && scan.atTopLevel subject found.start

def findMethod (subject : Subject) (scan : Scan) (found : Match) :
    Except ExtractError (List Finding) :=
  match found.part? .declaration, found.part? .name with
  | some declaration, some name => do
    let starts ← Statement.startsAt subject.masked found.start false
    if oneOfWords keywords name.text || !starts || oneOfWords keywords (found.text .type) then
      return []
    else
      let paren := found.stop - 1
      let parameters := Delimiter.find subject.masked paren
      if parameters.terminated then
        match ← trailer? subject.masked (parameters.close + 1) with
        | some trailer =>
          if isMethodHere subject scan found name trailer then
            methodFindings subject scan found declaration name (paren + 1) parameters.close trailer
          else return []
        | none => return []
      else return []
  | _, _ => return []

/-! ## Fields -/

def findField (subject : Subject) (scan : Scan) (found : Match) :
    Except ExtractError (List Finding) :=
  match found.part? .type, found.part? .name, scan.classAt? subject found.start with
  | some type, some name, some (index, draft) => do
    let starts ← Statement.startsAt subject.masked found.start false
    if oneOfWords keywords type.text || !starts then return []
    else
      let modifiers := modifiersOf found
      let typeText ← subject.spelling type.start type.stop
      let fields ← subject.declarators leadingName name.start
      return fields.map fun (offset, fieldName, defaultValue) => .property index {
        name := String.ofList fieldName
        type := String.ofList typeText
        visibility := (statedVisibility? modifiers).getD draft.defaultVisibility
        isStatic := hasModifier modifiers "static" || draft.entry.kind == .interface
        line := subject.lineOf offset
        defaultValue := defaultValue.map String.ofList }
  | _, _, _ => return []

/-! ## The language -/

def language : Language :=
  { id := "java"
    extensions := ["java"]
    aliases := []
    maskRules := .java
    dependencyRules
    lineRules
    rules := [
      ⟨.masked, packagePattern, findPackage⟩,
      ⟨.full, importPattern, findImport⟩,
      ⟨.masked, typePattern, findType⟩,
      ⟨.masked, methodPattern, findMethod⟩,
      ⟨.masked, fieldPattern, findField⟩] }

end Java
end Outline
