import Hypertree.Bytes.Decoder
import Hypertree.Signature

/-!
# Signatures as bytes

A signature is written as its selector and version, the index as a variable-length integer, the
randomizer, the number of layers and the layers. A layer is its number and the length of its body,
then the body: randomizer, leaf, one-time signature, authentication path. The length of the one-time
signature is not written; it is what the body leaves between the leaf and the path, whose length the
reader knows.

Reading checks this frame only. Whether the signature fits an engine is for verification to say.
-/

namespace Hypertree

/-- The major version of every encoding. -/
def versionMajor : UInt8 := 1

/-- The minor version written by this library; readers accept any. -/
def versionMinor : UInt8 := 0

/-- Refuses another major version. -/
def checkVersion (major minor : Nat) : Except Error Unit :=
  if major = versionMajor.toNat then .ok ()
  else .error (.versionMismatch versionMajor.toNat major minor)

namespace TreeSignature

/-- The body of an encoded layer. -/
def body (s : TreeSignature) : Bytes :=
  s.r ++ (Bytes.varint (UInt64.ofNat s.leaf) ++ (s.ots ++ s.auth))

/-- The length that is written before the body. -/
def bodyLength (s : TreeSignature) : Nat :=
  s.r.length + Bytes.varintLength (UInt64.ofNat s.leaf) + s.ots.length + s.auth.length

/-- An encoded layer. -/
def toBytes (s : TreeSignature) : Bytes :=
  UInt8.ofNat s.layer :: (Bytes.varint (UInt64.ofNat s.bodyLength) ++ s.body)

/-- The body of a layer with a given number. -/
def bodyDecoder (n treeHeight layer : Nat) : Decoder TreeSignature := do
  let authLength := treeHeight * n
  let r ← Decoder.take n .layerRandomizer
  let leaf ← Decoder.bounded .leaf (2 ^ (32 : Nat) - 1)
  let left ← Decoder.remaining
  if left < authLength then
    throw (.truncated .authenticationPath)
  let ots ← Decoder.take (left - authLength) .oneTimeSignature
  let auth ← Decoder.take authLength .authenticationPath
  return ⟨layer, r, leaf, ots, auth⟩

/-- A layer of a signature that is `limit` bytes long in all. -/
def decoder (n treeHeight limit : Nat) : Decoder TreeSignature := do
  let layer ← Decoder.byte .layer
  let length ← Decoder.bounded .layerBodyLength limit
  let body ← Decoder.take length .layerBody
  (bodyDecoder n treeHeight layer.toNat).decode body

end TreeSignature

namespace Signature

/-- An encoded signature. -/
def toBytes (s : Signature) : Bytes :=
  s.selector.code :: versionMajor ::
    (Bytes.varint (UInt64.ofNat s.index) ++
      (s.r ++ (UInt8.ofNat s.layers.length :: s.layers.flatMap TreeSignature.toBytes)))

/-- A signature with digests of `n` bytes and trees of a given height, `limit` bytes long. -/
def decoder (n treeHeight limit : Nat) : Decoder Signature := do
  let selector ← Selector.ofCode (← Decoder.byte .signatureType)
  let version ← Decoder.byte .signatureVersion
  checkVersion version.toNat 0
  let index ← Decoder.varint .signatureIndex
  let r ← Decoder.take n .randomizer
  let count ← Decoder.byte .layerCount
  let layers ← Decoder.repeated (TreeSignature.decoder n treeHeight limit) count.toNat
  return ⟨selector, index, r, layers⟩

/-- The signature with a given encoding. -/
def ofBytes (bytes : Bytes) (n treeHeight : Nat) : Except Error Signature :=
  (decoder n treeHeight bytes.length).decode bytes

end Signature

end Hypertree
