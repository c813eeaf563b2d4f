/-!
JSON values.

Objects keep their fields in order, since the order shows when a value is
printed.  A number is either a natural number or kept as it was written: no
field of an outline holds a fraction, and `1.0` is not the number `1` to a
reader that asks for a natural one.
-/

namespace Outline

inductive Json
  | null
  | bool (value : Bool)
  | natural (value : Nat)
  /-- A number with a sign, a fraction or an exponent. -/
  | decimal (literal : String)
  | string (value : String)
  | array (items : List Json)
  | object (fields : List (String × Json))
  deriving Repr, Inhabited

namespace Json

/-- The value of a field.  Where a name is repeated the last field counts. -/
def field? (key : String) : List (String × Json) → Option Json
  | [] => none
  | (name, value) :: rest =>
    match field? key rest with
    | some found => some found
    | none => if name = key then some value else none

/-- The fields of an object. -/
def object? : Json → Option (List (String × Json))
  | .object fields => some fields
  | _ => none

/-- The fields of an object, or of an array that gives them in order.  An array
must give the first `least` of them. -/
def fields? (names : List String) (least : Nat) : Json → Option (List (String × Json))
  | .object fields => some fields
  | .array items =>
    if least ≤ items.length ∧ items.length ≤ names.length then some (names.zip items) else none
  | _ => none

/-- A name, alone or as the one field of an object without a value. -/
def name? : Json → Option String
  | .string name => some name
  | .object [(name, .null)] => some name
  | _ => none

def string? : Json → Option String
  | .string value => some value
  | _ => none

def bool? : Json → Option Bool
  | .bool value => some value
  | _ => none

/-- A natural number below a bound. -/
def naturalBelow? (bound : Nat) : Json → Option Nat
  | .natural value => if value < bound then some value else none
  | _ => none

def array? : Json → Option (List Json)
  | .array items => some items
  | _ => none

/-- A list whose items all have a given form. -/
def list? {α : Type} (item? : Json → Option α) (value : Json) : Option (List α) :=
  value.array?.bind (·.mapM item?)

/-- The value of a field that must be there. -/
def required {α : Type} (fields : List (String × Json)) (key : String) (read : Json → Option α) :
    Option α :=
  (field? key fields).bind read

/-- The value of a field that may be missing or `null`. -/
def maybe {α : Type} (fields : List (String × Json)) (key : String) (read : Json → Option α) :
    Option (Option α) :=
  match field? key fields with
  | none | some .null => some none
  | some value => (read value).map some

/-- A field that is left out when it has no value. -/
def present {α : Type} (key : String) (write : α → Json) : Option α → List (String × Json)
  | none => []
  | some value => [(key, write value)]

def ofList {α : Type} (f : α → Json) (items : List α) : Json := .array (items.map f)

def ofOption {α : Type} (f : α → Json) : Option α → Json
  | some value => f value
  | none => .null

end Json
end Outline
