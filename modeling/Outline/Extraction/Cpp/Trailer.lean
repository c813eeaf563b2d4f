import Outline.Extraction.Statement

/-!
What stands between the parameters of a C++ function and its body or semicolon.
-/

namespace Outline
namespace Cpp

/-- How the declaration of a function ends: with a body that opens at an offset,
or with a semicolon, plain, after `= 0`, or after `= default` or `= delete`. -/
inductive Ending
  | body (opening : Nat)
  | bare (stop : Nat)
  | pure (stop : Nat)
  | defaulted (stop : Nat)
  deriving DecidableEq, Repr

/-- The end of a declaration and the range of its trailing return type. -/
structure Trailer where
  ending : Ending
  returnRange : Option (Nat × Nat)
  deriving DecidableEq, Repr

/-- Whether a brace after a character opens the initializer of a member, and not
the body of the constructor. -/
def opensInitializer : Option Char → Bool
  | some c => c.isAlphanum || c == '_' || c == '>'
  | none => false

/-- Look for the body of a constructor in the rest of its initializer list;
`previous` is the nearest character before the rest that is not blank. -/
def constructorBodyFrom : Option Char → Nat → Nat → List Char → Option Nat
  | _, _, _, [] => none
  | previous, resume, offset, c :: rest =>
    let seen := if Text.isBlank c then previous else some c
    let offset' := offset + c.utf8Size
    if offset < resume then constructorBodyFrom seen resume offset' rest
    else if c = '(' ∨ (c = '\x7b' ∧ opensInitializer previous = true) then
      match Delimiter.closeOf? offset (c :: rest) with
      | some close => constructorBodyFrom seen (close + 1) offset' rest
      | none => none
    else if c = '\x7b' then some offset
    else if c = ';' ∨ c = '\x7d' then none
    else constructorBodyFrom seen resume offset' rest

/-- The body after the initializer list that starts at an offset. -/
def constructorBody? (masked : List Char) (start : Nat) : Option Nat :=
  let previous := (Text.before masked start).reverse.find? fun c => !Text.isBlank c
  constructorBodyFrom previous 0 start (Text.suffixAt masked start)

/-- The word that a text starts with. -/
def leadingWord (text : List Char) : List Char :=
  text.takeWhile fun c => c.isAlphanum || c == '_'

def isWord (words : List String) (word : List Char) : Bool := words.contains (String.ofList word)

/-- The ending that an equals sign introduces; `rest` is the text after it. -/
def assignedEnding? (offset : Nat) (rest : List Char) : Option Ending := do
  let stop ← (Text.find? [';'] rest).map (offset + 1 + ·)
  let value := Text.trimStart rest
  if value.head? = some '0' then some (.pure stop)
  else if Text.startsWith value "default".toList || Text.startsWith value "delete".toList then
    some (.defaulted stop)
  else none

/-- One round of reading a trailer: it ends here, or goes on at an offset, with
the range of the return type if there is one by then. -/
inductive Round
  | ends (trailer : Option Trailer)
  | goesOn (returnRange : Option (Nat × Nat)) (start : Nat)
  deriving DecidableEq, Repr

/-- What the text at an offset tells: the body or the end of the declaration, a
trailing return type, a reference mark or a specifier. -/
def roundAt (masked : List Char) (returnRange : Option (Nat × Nat)) (offset : Nat) :
    List Char → Round
  | [] => .ends none
  | '\x7b' :: _ => .ends (some ⟨.body offset, returnRange⟩)
  | ';' :: _ => .ends (some ⟨.bare offset, returnRange⟩)
  | '=' :: rest => .ends ((assignedEnding? offset rest).map (⟨·, returnRange⟩))
  | ':' :: ':' :: _ => .ends none
  | ':' :: _ => .ends ((constructorBody? masked (offset + 1)).map (⟨.body ·, returnRange⟩))
  | '-' :: '>' :: rest =>
    match Text.find? ['\x7b', ';', '='] rest with
    | some width => .goesOn (some (offset + 2, offset + 2 + width)) (offset + 2 + width)
    | none => .ends none
  | '&' :: '&' :: _ => .goesOn returnRange (offset + 2)
  | '&' :: _ => .goesOn returnRange (offset + 1)
  | rest =>
    let word := leadingWord rest
    let after := offset + word.length
    if isWord ["const", "volatile", "override", "final", "mutable", "try"] word then
      .goesOn returnRange after
    else if isWord ["noexcept", "throw"] word then
      let after := Text.skipBlanks masked after
      if Text.charAt? masked after = some '(' then
        .goesOn returnRange ((Delimiter.find masked after).close + 1)
      else .goesOn returnRange after
    else .ends none

/-- Read on from an offset, over specifiers and a trailing return type.  Every
round reads at least one character. -/
def trailerFrom (masked : List Char) :
    Nat → Option (Nat × Nat) → Nat → Except ExtractError (Option Trailer)
  | 0, _, _ => return none
  | fuel + 1, returnRange, start => do
    let offset := Text.skipBlanks masked start
    let rest ← SourceText.tailFrom masked offset
    match roundAt masked returnRange offset rest with
    | .ends trailer => return trailer
    | .goesOn returnRange start => trailerFrom masked fuel returnRange start

/-- Read what follows the parameters of a function. -/
def trailer? (masked : List Char) (start : Nat) : Except ExtractError (Option Trailer) :=
  trailerFrom masked (masked.length + 1) none start

end Cpp
end Outline
