import Outline.Declaration.Parameter
import Outline.Extraction.Language

/-!
The shapes of C++ declarations, and the words the language reserves.
-/

namespace Outline
namespace Cpp

/-- Words that are never the names of functions. -/
def keywords : List String :=
  ["if", "else", "for", "while", "do", "switch", "case", "default", "try", "catch", "return",
    "sizeof", "alignof", "alignas", "decltype", "static_assert", "new", "delete", "throw",
    "typeid", "noexcept", "defined", "using", "typedef", "namespace", "template", "goto",
    "co_return", "co_await", "co_yield", "requires", "static_cast", "dynamic_cast",
    "reinterpret_cast", "const_cast", "public", "private", "protected"]

/-- Words that no type of a function or a field starts with. -/
def nonTypes : List String :=
  ["return", "else", "new", "delete", "throw", "case", "goto", "co_return", "co_await",
    "co_yield", "using", "typedef", "namespace", "template", "public", "private", "protected",
    "friend", "class", "struct", "union", "enum", "operator"]

def parameterRules : ParameterRules :=
  { modifiers := ["register"]
    typeWords := ["int", "long", "short", "char", "bool", "float", "double", "void", "unsigned",
      "signed", "const", "volatile", "auto", "size_t", "wchar_t"]
    annotations := false
    defaults := true }

def dependencyRules : DependencyRules :=
  { fieldAccess := [("this", "->")]
    scopedCalls := true
    ignored := ["if", "for", "while", "switch", "catch", "return", "sizeof", "alignof",
      "decltype", "static_assert", "new", "delete", "throw", "typeid", "noexcept", "static_cast",
      "dynamic_cast", "reinterpret_cast", "const_cast", "this", "std", "int", "long", "short",
      "char", "bool", "float", "double", "void", "unsigned", "signed", "auto"] }

def lineRules : LineRules :=
  { blockKeywords := ["if", "else", "for", "while", "do", "switch", "case", "default", "try",
      "catch", "class", "struct", "union", "enum", "namespace", "template", "public", "private",
      "protected", "extern"]
    skipped := ["[[", "*"]
    capitalLines := true }

/-- A character that template arguments may hold in front of a body. -/
def isArgumentChar (c : Char) : Bool := !(c == ';' || c == '\x7b' || c == '\x7d')

/-- The same outside of parentheses. -/
def isBareArgumentChar (c : Char) : Bool := isArgumentChar c && c != '(' && c != ')'

/-- A character of a name qualified by scopes. -/
def isPathChar (c : Char) : Bool := Text.isWordChar c || c == ':'

def isPointerMark (c : Char) : Bool := c == '*' || c == '&'

/-- A name qualified by scopes. -/
def path : Pattern := .char Pattern.isNameStart ++ .run0 isPathChar

/-- A word in capitals, taken to be a macro. -/
def capitals : Pattern :=
  .char (fun c => c.isUpper || c == '_') ++ .run0 fun c => c.isUpper || c.isDigit || c == '_'

/-- The head of a template. -/
def templateHead : Pattern :=
  .optional (.lit "template" ++ .blanks ++ .lit "<" ++ .run0 isArgumentChar ++ .lit ">" ++ .blanks)

/-- An attribute in double brackets. -/
def attributeMark : Pattern := .lit "[[" ++ .run0 (· != ']') ++ .lit "]]"

/-- Pointer and reference marks and `const` after a type. -/
def typeMarks : Pattern :=
  .many ((.blanks ++ .run1 isPointerMark) <|> (.blanks1 ++ .lit "const" ++ .boundary))

/-- What stands between a type and a name: blanks and marks. -/
def typeGap : Pattern := .run1 fun c => Text.isBlank c || isPointerMark c

def includePattern : Pattern :=
  let gap := Pattern.run0 fun c => c == ' ' || c == '\t'
  .lineStart ++ gap ++ .lit "#" ++ gap ++ .lit "include" ++ gap
    ++ .part .mark (.char fun c => c == '<' || c == '"')
    ++ .part .path (.run1 fun c => !(c == '>' || c == '"' || c == '\n'))
    ++ .char fun c => c == '>' || c == '"'

def namespacePattern : Pattern :=
  .boundary ++ .optional (.lit "inline" ++ .blanks1) ++ .lit "namespace"
    ++ .optional (.blanks1 ++ .part .name path) ++ .blanks ++ .lit "\x7b"

/-- A linkage block: the contents of its string are blank in the masked view. -/
def linkagePattern : Pattern :=
  .boundary ++ .lit "extern" ++ .blanks ++ .lit "\"" ++ .blanks ++ .lit "\"" ++ .blanks
    ++ .lit "\x7b"

/-- An alignment, an attribute or a macro between the kind of a class and its
name. -/
def classSpecifier : Pattern :=
  (.lit "alignas" ++ .blanks ++ .lit "(" ++ .run0 (· != ')') ++ .lit ")") <|> attributeMark <|> capitals

def classPattern : Pattern :=
  templateHead
    ++ .part .declaration
      (.part .kind (.oneOf ["class", "struct", "union"]) ++ .blanks1
        ++ .many (classSpecifier ++ .blanks1)
        ++ .part .name .name
        ++ .optional (.blanks ++ .lit "<" ++ .run0 isArgumentChar ++ .lit ">")
        ++ .optional (.blanks1 ++ .lit "final"))
    ++ .blanks ++ .part .tail (.char fun c => c == ':' || c == '\x7b')

def accessPattern : Pattern :=
  .boundary ++ .part .kind (.oneOf ["public", "protected", "private"]) ++ .blanks ++ .lit ":"

/-- Words in front of a type, each followed by blanks. -/
def typeWords (words : List String) : Pattern := .many (.oneOf words ++ .blanks1)

/-- The symbol of an operator function, or the type it converts to. -/
def operatorSymbol : Pattern :=
  .lit "()" <|> .lit "[]"
    <|> (.char (fun c => !(Text.isBlank c || Pattern.isNameStart c || c == '('))
      ++ .run0 fun c => !(Text.isBlank c || c == '('))
    <|> path

/-- The scopes in front of the name of a function. -/
def scopes : Pattern :=
  .many (.name ++ .optional (.blanks ++ .lit "<" ++ .few isBareArgumentChar ++ .lit ">")
    ++ .blanks ++ .lit "::" ++ .blanks)

/-- The name of a function: a destructor, an operator or a plain name. -/
def functionName : Pattern :=
  scopes ++ ((.lit "~" ++ .blanks ++ .name)
    <|> (.lit "operator" ++ .blanks ++ operatorSymbol)
    <|> .name)

/-- The type in front of the name of a function, with the gap before it. -/
def returnType : Pattern :=
  typeWords ["const", "volatile", "unsigned", "signed", "long", "short", "typename", "struct",
      "enum"]
    ++ path ++ .optional (.blanks ++ .lit "<" ++ .run0 isBareArgumentChar ++ .lit ">")
    ++ typeMarks ++ typeGap

def functionPattern : Pattern :=
  templateHead ++ .many (attributeMark ++ .blanks)
    ++ .part .declaration
      (.part .modifiers
          (.many ((.oneOf ["static", "inline", "virtual", "explicit", "constexpr", "consteval",
            "extern", "friend"] <|> capitals) ++ .blanks1))
        ++ .optional (.part .type returnType)
        ++ .part .name functionName)
    ++ .blanks ++ .lit "("

def fieldPattern : Pattern :=
  .part .declaration
      (.part .modifiers (typeWords ["static", "mutable", "constexpr", "inline", "thread_local",
          "volatile", "const"])
        ++ .part .type
          (typeWords ["const", "unsigned", "signed", "long", "short", "struct", "enum",
              "typename"]
            ++ path ++ .optional (.blanks ++ .lit "<" ++ .few isArgumentChar ++ .lit ">")
            ++ typeMarks)
        ++ typeGap ++ .part .name .name)
    ++ .blanks ++ .many (.lit "[" ++ .run0 (· != ']') ++ .lit "]" ++ .blanks)
    ++ (.char (fun c => c == ';' || c == '=' || c == ',' || c == '\x7b')
      <|> (.lit ":" ++ .blanks ++ .char Text.isDecimal))

/-- The name that a declarator starts with, after its marks. -/
def declaratorName : Pattern :=
  .textStart ++ .run0 (fun c => Text.isBlank c || isPointerMark c) ++ .part .name .name

/-- Template arguments without others inside. -/
def templateArguments : Pattern :=
  .lit "<" ++ .run0 (fun c => !(c == '<' || c == '>')) ++ .lit ">"

end Cpp
end Outline
