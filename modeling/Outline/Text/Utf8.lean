/-!
Texts as UTF-8 bytes, and bytes as texts.

The decoder reads one byte at a time.  Its state is what the current character
still needs: how many bytes, and in which range the next one must lie.  Narrow
ranges for the second byte keep out overlong forms, surrogates and code points
past the last one, so every byte that is refused is refused as early as it can
be told.
-/

namespace Outline
namespace Utf8

/-- The bytes of a text. -/
def encode (text : List Char) : List UInt8 := text.flatMap String.utf8EncodeChar

/-- The part of a character that has been read: its bits so far, how many bytes
are missing, and the range of the next one. -/
structure Pending where
  bits : Nat
  missing : Nat
  low : Nat
  high : Nat
  deriving DecidableEq, Repr

/-- A byte that starts a character stands for one, or opens a longer one, or
neither. -/
inductive Start
  | whole (c : Char)
  | partly (pending : Pending)
  | invalid
  deriving DecidableEq, Repr

def Start.ofByte (byte : UInt8) : Start :=
  let n := byte.toNat
  if n < 0x80 then .whole (Char.ofNat n)
  else if n < 0xC2 then .invalid
  else if n < 0xE0 then .partly ⟨n - 0xC0, 1, 0x80, 0xBF⟩
  else if n = 0xE0 then .partly ⟨0, 2, 0xA0, 0xBF⟩
  else if n = 0xED then .partly ⟨0xD, 2, 0x80, 0x9F⟩
  else if n < 0xF0 then .partly ⟨n - 0xE0, 2, 0x80, 0xBF⟩
  else if n = 0xF0 then .partly ⟨0, 3, 0x90, 0xBF⟩
  else if n < 0xF4 then .partly ⟨n - 0xF0, 3, 0x80, 0xBF⟩
  else if n = 0xF4 then .partly ⟨4, 3, 0x80, 0x8F⟩
  else .invalid

/-- Whether a byte continues a character. -/
def Pending.takes (pending : Pending) (byte : UInt8) : Bool :=
  pending.low ≤ byte.toNat && byte.toNat ≤ pending.high

def Pending.add (pending : Pending) (byte : UInt8) : Pending :=
  ⟨pending.bits * 64 + (byte.toNat - 0x80), pending.missing - 1, 0x80, 0xBF⟩

/-- The characters of bytes, given the part of a character that was read before
them.  Bytes that are no part of a character give `none`, once for each longest
run of bytes that could have started one. -/
def decodeFrom : Option Pending → List UInt8 → List (Option Char)
  | none, [] => []
  | some _, [] => [none]
  | none, byte :: rest =>
    match Start.ofByte byte with
    | .whole c => some c :: decodeFrom none rest
    | .partly pending => decodeFrom (some pending) rest
    | .invalid => none :: decodeFrom none rest
  | some pending, byte :: rest =>
    if pending.takes byte then
      if pending.missing ≤ 1 then some (Char.ofNat (pending.add byte).bits) :: decodeFrom none rest
      else decodeFrom (some (pending.add byte)) rest
    else
      match Start.ofByte byte with
      | .whole c => none :: some c :: decodeFrom none rest
      | .partly pending => none :: decodeFrom (some pending) rest
      | .invalid => none :: none :: decodeFrom none rest

def decode (bytes : List UInt8) : List (Option Char) := decodeFrom none bytes

/-- The text of bytes, if all of them are part of a character. -/
def decode? (bytes : List UInt8) : Option (List Char) := (decode bytes).mapM id

/-- The character that stands for bytes which are no text. -/
def replacement : Char := '\uFFFD'

/-- The text of bytes, with replacements for those that are no text. -/
def decodeLossy (bytes : List UInt8) : List Char := (decode bytes).map (·.getD replacement)

end Utf8
end Outline
