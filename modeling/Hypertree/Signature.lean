import Hypertree.Error

/-!
# Signatures

A signature of a message consists of one tree signature per layer, the bottom layer first. The
bottom tree signs the digest of the message; each tree above signs the root of the tree below. All
layers repeat the randomizer of the message.
-/

namespace Hypertree

/-- Which digest of a key a signature was made under. -/
inductive Selector where
  | primary
  | backup
  deriving DecidableEq, Repr

namespace Selector

/-- The first byte of an encoded signature. -/
def code : Selector → UInt8
  | primary => 0
  | backup => 1

/-- The selector with a given code. -/
def ofCode (code : UInt8) : Except Error Selector :=
  if code = 0 then .ok primary
  else if code = 1 then .ok backup
  else .error (.encoding .unknownSignatureType)

end Selector

/-- The signature of one tree: one layer of a signature, or the whole of it for a single tree. -/
structure TreeSignature where
  layer : Nat
  /-- The randomizer of the message. -/
  r : Bytes
  /-- The leaf that signed. -/
  leaf : Nat
  /-- The one-time signature. -/
  ots : Bytes
  /-- The authentication path, the leaf level first. -/
  auth : Bytes
  deriving DecidableEq, Repr

/-- A signature over all layers. -/
structure Signature where
  selector : Selector
  /-- The global index that signed. -/
  index : Nat
  /-- The randomizer of the message. -/
  r : Bytes
  /-- The tree signatures, the bottom layer first. -/
  layers : List TreeSignature
  deriving DecidableEq, Repr

/-- A signature of a single tree as a signature over one layer: its leaf is the global index. -/
def TreeSignature.toSignature (s : TreeSignature) : Signature :=
  ⟨.primary, s.leaf, s.r, [s]⟩

end Hypertree
