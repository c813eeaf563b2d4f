import Outline.Declaration.Parameter
import Outline.Extraction.Language

/-!
The shapes of Java declarations, and the words the language reserves.
-/

namespace Outline
namespace Java

/-- Words that are neither the names of methods nor types. -/
def keywords : List String :=
  ["if", "else", "for", "while", "do", "switch", "case", "default", "try", "catch", "finally",
    "return", "new", "throw", "throws", "super", "this", "synchronized", "assert", "yield",
    "package", "import", "break", "continue", "goto", "instanceof", "var"]

/-- Packages of the platform. -/
def platformPackages : List String :=
  ["java", "javax", "jakarta", "jdk", "sun", "com.sun", "org.w3c", "org.xml", "org.ietf",
    "org.omg"]

def parameterRules : ParameterRules :=
  { modifiers := ["final"]
    typeWords := ["int", "long", "boolean", "double", "float", "char", "byte", "short"]
    annotations := true
    defaults := false }

def dependencyRules : DependencyRules :=
  { fieldAccess := [("this", ".")]
    scopedCalls := false
    ignored := ["if", "for", "while", "switch", "catch", "synchronized", "return", "new", "super",
      "this", "throw", "assert", "int", "long", "boolean", "double", "float", "char", "byte",
      "short", "void", "null", "true", "false"] }

def lineRules : LineRules :=
  { blockKeywords := ["if", "else", "for", "while", "do", "switch", "case", "default", "try",
      "catch", "finally", "class", "interface", "enum", "record", "package", "import", "static",
      "synchronized"]
    skipped := ["@", "*"]
    capitalLines := false }

/-- A character of a qualified name. -/
def isPathChar (c : Char) : Bool := Text.isWordChar c || c == '$' || c == '.'

/-- A character that type arguments may hold in a declaration. -/
def isArgumentChar (c : Char) : Bool :=
  !(c == ';' || c == '\x7b' || c == '\x7d' || c == '(' || c == ')')

/-- Any number of annotations with their arguments. -/
def annotations : Pattern := .many (Parameter.annotation ++ .blanks)

/-- Some of the given words, each followed by blanks, kept as the modifiers. -/
def modifiers (words : List String) : Pattern :=
  .part .modifiers (.many (.oneOf words ++ .blanks1))

/-- Type arguments, as few characters as will do. -/
def typeArguments : Pattern := .lit "<" ++ .few isArgumentChar ++ .lit ">"

/-- A qualified name with type arguments and array brackets. -/
def typeName : Pattern :=
  .part .type (.run1 isPathChar ++ .optional (.blanks ++ typeArguments)
    ++ .many (.blanks ++ .lit "[" ++ .blanks ++ .lit "]"))

def packagePattern : Pattern :=
  .boundary ++ .lit "package" ++ .blanks1 ++ .part .path (.run1 isPathChar) ++ .blanks ++ .lit ";"

def importPattern : Pattern :=
  .lineStart ++ .run0 (fun c => c == ' ' || c == '\t') ++ .lit "import" ++ .blanks1
    ++ .optional (.part .mark (.lit "static" ++ .blanks1))
    ++ .part .path (.char isPathChar ++ .few isPathChar)
    ++ .optional (.part .tail (.lit ".*")) ++ .blanks ++ .lit ";"

def typePattern : Pattern :=
  annotations ++ .part .declaration
    (modifiers ["public", "protected", "private", "static", "final", "abstract", "sealed",
        "non-sealed", "strictfp"]
      ++ .part .kind (.oneOf ["class", "interface", "enum", "record", "@interface"]) ++ .blanks1
      ++ .part .name .dollarName)

def methodPattern : Pattern :=
  annotations ++ .part .declaration
    (modifiers ["public", "protected", "private", "static", "final", "abstract", "synchronized",
        "native", "default", "strictfp"]
      ++ .optional (typeArguments ++ .blanks)
      ++ .optional (typeName ++ .blanks1)
      ++ .part .name .dollarName)
    ++ .blanks ++ .lit "("

def fieldPattern : Pattern :=
  annotations ++ .part .declaration
    (modifiers ["public", "protected", "private", "static", "final", "transient", "volatile"]
      ++ typeName ++ .blanks1 ++ .part .name .dollarName)
    ++ .blanks ++ .many (.lit "[" ++ .blanks ++ .lit "]" ++ .blanks)
    ++ .char fun c => c == '=' || c == ';' || c == ','

/-- The word that starts a clause of a header. -/
def clausePattern : Pattern :=
  .boundary ++ .part .kind (.oneOf ["extends", "implements", "permits"]) ++ .boundary

/-- The name that a declarator or an enum constant starts with. -/
def leadingName : Pattern :=
  .textStart ++ .blanks ++ annotations ++ .part .name .dollarName

end Java
end Outline
