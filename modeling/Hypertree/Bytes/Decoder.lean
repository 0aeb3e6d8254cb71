import Hypertree.Bytes.Varint
import Hypertree.Error

/-!
# Decoders

A decoder takes bytes from the front of its input and either returns a value and the rest of the
input, or fails. Each step names the field it reads, so a failure says where the input ended or what
it held. `Decoder.decode` runs a decoder on a whole string and refuses bytes left over.
-/

namespace Hypertree

/-- A reader of the front of a byte string. -/
abbrev Decoder := StateT Bytes (Except Error)

namespace Decoder

/-- The next `len` bytes. -/
def take (len : Nat) (field : Field) : Decoder Bytes := fun input =>
  let out := input.take len
  if out.length = len then .ok (out, input.drop len) else .error (.truncated field)

/-- The next byte. -/
def byte (field : Field) : Decoder UInt8
  | [] => .error (.truncated field)
  | b :: rest => .ok (b, rest)

/-- The number of bytes left. -/
def remaining : Decoder Nat := fun input =>
  .ok (input.length, input)

/-- Fails for a broken rule of the encoding. -/
def fault {α : Type} (fault : EncodingFault) : Decoder α :=
  throw (.encoding fault)

/-- The groups of a variable-length integer from the given shift on; at most `left` of them. The
tenth group has room for one bit, and a final group that is not the first must not be zero. -/
def varintGroups (field : Field) : (left : Nat) → (shift value : UInt64) → Decoder UInt64
  | 0, _, _ => fault .varintTooLong
  | left + 1, shift, value => do
    let b ← byte field
    let bits := (b &&& 0x7f).toUInt64
    -- nine groups and one bit make 64 bits
    if shift = 63 ∧ 1 < bits then
      fault .varintOverflow
    else
      let value := value ||| (bits <<< shift)
      if b &&& 0x80 = 0 then
        if b = 0 ∧ shift ≠ 0 then fault .varintNotMinimal else return value
      else varintGroups field left (shift + 7) value

/-- A variable-length integer. -/
def varint (field : Field) : Decoder Nat := do
  let value ← varintGroups field 10 0 0
  return value.toNat

/-- A variable-length integer of at most `max`. -/
def bounded (field : Field) (max : Nat) : Decoder Nat := do
  let value ← varint field
  if value ≤ max then return value else fault (.field field)

/-- A string of a given length that is preceded by its length. -/
def prefixed (len : Nat) (field : Field) : Decoder Bytes := do
  let actual ← varint field
  if actual = len then take len field else throw (.invalidLength field len actual)

/-- `count` values, one after another. -/
def repeated {α : Type} (d : Decoder α) : (count : Nat) → Decoder (List α)
  | 0 => return []
  | count + 1 => do
    let value ← d
    let rest ← repeated d count
    return value :: rest

/-- The value of a whole byte string. -/
def decode {α : Type} (d : Decoder α) (input : Bytes) : Except Error α :=
  match d.run input with
  | .error e => .error e
  | .ok (value, []) => .ok value
  | .ok (_, _ :: _) => .error (.encoding .trailingBytes)

end Decoder

end Hypertree
