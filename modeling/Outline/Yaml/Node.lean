import Outline.Yaml.Token

/-!
The values of YAML documents.

A value that has an anchor has a number, and a reference stands for the last
value in the document with the number it names.
-/

namespace Outline
namespace Yaml

inductive Node
  | scalar (number : Option Nat) (style : Style) (tag : Option (List UInt8)) (text : List Char)
  | sequence (number : Option Nat) (items : List Node)
  | mapping (number : Option Nat) (fields : List (Node × Node))
  | reference (number : Nat)
  deriving Repr, Inhabited

namespace Node

/-- What stands where a value is left out. -/
def missing : Node := .scalar none .plain none []

def number? : Node → Option Nat
  | .scalar number _ _ _ | .sequence number _ | .mapping number _ => number
  | .reference _ => none

mutual

/-- The values in a value, itself included, in the order in which they start. -/
def parts : Node → List Node
  | .sequence number items => .sequence number items :: partsOfItems items
  | .mapping number fields => .mapping number fields :: partsOfFields fields
  | node => [node]

def partsOfItems : List Node → List Node
  | [] => []
  | item :: rest => parts item ++ partsOfItems rest

def partsOfFields : List (Node × Node) → List Node
  | [] => []
  | (key, value) :: rest => parts key ++ parts value ++ partsOfFields rest

end

/-- The value that a part of a document stands for. -/
def resolve (document : Node) : Node → Option Node
  | .reference number => document.parts.reverse.find? fun part => part.number? == some number
  | node => some node

end Node
end Yaml
end Outline
