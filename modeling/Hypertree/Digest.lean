import Hypertree.Error
import Hypertree.Digest.Sha256
import Hypertree.Digest.Sha512
import Hypertree.Digest.Keccak

/-!
# Digests

A key names the digest that built its trees, and optionally a second one. `Digest` lists the
supported algorithms with their codes and names; `Suite` gives each a function. The constructions of
the library take a `Suite` as a parameter and use nothing of it but the lengths of its outputs, so
their properties do not depend on any particular hash function. `Suite.standard` holds the real
ones.

`Absorber` is a digest fed in parts: it remembers what it was given since it was last empty.
-/

namespace Hypertree

/-- A digest algorithm. -/
inductive Digest where
  | sha256
  | sha3
  | shake
  | sha512
  deriving DecidableEq, Repr

namespace Digest

/-- Every algorithm, in the order of the codes. -/
def all : List Digest :=
  [sha256, sha3, shake, sha512]

/-- The output size in bytes. -/
def size : Digest → Nat
  | sha256 | sha3 | shake => 32
  | sha512 => 64

/-- The code stored in key headers. -/
def code : Digest → UInt8
  | sha256 => 1
  | sha3 => 2
  | shake => 3
  | sha512 => 4

/-- The digest with a given header code. -/
def ofCode (code : UInt8) : Except Error Digest :=
  if code = 1 then .ok sha256
  else if code = 2 then .ok sha3
  else if code = 3 then .ok shake
  else if code = 4 then .ok sha512
  else .error (.unsupportedHash code)

/-- The header code of an optional digest: zero stands for none. -/
def optionalCode : Option Digest → UInt8
  | none => 0
  | some d => d.code

/-- The optional digest with a given header code. -/
def ofOptionalCode (code : UInt8) : Except Error (Option Digest) :=
  if code = 0 then .ok none else (ofCode code).map some

/-- The lower-case name used in text. -/
def name : Digest → String
  | sha256 => "sha2-256"
  | sha3 => "sha3-256"
  | shake => "shake256"
  | sha512 => "sha2-512"

/-- The digest with a given name. -/
def ofName? (name : String) : Option Digest :=
  all.find? (·.name = name)

/-- The digest with a given name, as a field of an encoding. -/
def ofName (name : String) : Except Error Digest :=
  match ofName? name with
  | some d => .ok d
  | none => .error (.encoding .unknownHashName)

/-- The name shown in diagnostics. -/
def tag : Digest → String
  | sha256 => "Sha2_256"
  | sha3 => "Sha3_256"
  | shake => "Shake256"
  | sha512 => "Sha2_512"

theorem size_pos (d : Digest) : 0 < d.size := by
  cases d <;> decide

end Digest

/-- One hash function per digest, with outputs of the digest's size. -/
structure Suite where
  /-- The digest of a message. -/
  hash : Digest → Bytes → Bytes
  /-- Outputs have the size of their digest. -/
  length_hash : ∀ d message, (hash d message).length = d.size

namespace Suite

attribute [simp] Suite.length_hash

/-- The published hash functions. -/
def standard : Suite where
  hash
    | .sha256 => Sha256.digest
    | .sha3 => Keccak.sha3
    | .shake => Keccak.shake
    | .sha512 => Sha512.digest
  length_hash d message := by
    cases d
    · exact Sha256.length_digest message
    · exact Keccak.length_sha3 message
    · exact Keccak.length_shake message
    · exact Sha512.length_digest message

end Suite

/-- A digest fed in parts: the bytes absorbed since it was last empty. -/
structure Absorber where
  /-- The bytes absorbed so far. -/
  absorbed : Bytes
  deriving DecidableEq, Repr

namespace Absorber

/-- An absorber that has seen nothing. -/
def empty : Absorber := ⟨[]⟩

/-- Absorbs more bytes. -/
def update (a : Absorber) (data : Bytes) : Absorber :=
  ⟨a.absorbed ++ data⟩

/-- The digest of the absorbed bytes, and the absorber emptied. -/
def finish (a : Absorber) (suite : Suite) (d : Digest) : Bytes × Absorber :=
  (suite.hash d a.absorbed, empty)

/-- The absorber emptied. -/
def reset (_ : Absorber) : Absorber := empty

end Absorber

end Hypertree
