import Hypertree.Proofs.Checked.Key

/-!
# Reading signatures, checked

A signature declares up to 255 layers and a length for each of their bodies. A body is read from a
buffer of its own; what is left of it after the leaf must hold the authentication path before the
rest is taken for the one-time signature.

`unbreached_signature` says that the reader has the outcome of `Signature.ofBytes` on every string,
for the digest size and the tree height of valid parameters, and that it reads no more layers than
there are bytes.
-/

namespace Hypertree.Checked

/-- The body of a layer with a given number. -/
def layerBody (n authLength layer : Nat) : Reader TreeSignature := do
  let r ← take n .layerRandomizer
  let value ← bounded .leaf (2 ^ (32 : Nat) - 1)
  let leaf ← narrow 32 value
  let left ← remaining
  if left < authLength then
    throw (.refusal (.truncated .authenticationPath))
  let otsLength ← difference left authLength
  let ots ← take otsLength .oneTimeSignature
  let auth ← take authLength .authenticationPath
  return ⟨layer, r, leaf, ots, auth⟩

/-- A layer of a signature that is `limit` bytes long in all. -/
def layer (n authLength limit : Nat) : Reader TreeSignature := do
  let layer ← entry .layer
  let length ← bounded .layerBodyLength limit
  let body ← take length .layerBody
  (decode (layerBody n authLength layer.toNat) body).1

/-- A signature with digests of `n` bytes and trees of a given height, `limit` bytes long. -/
def signatureReader (n treeHeight limit : Nat) : Reader Signature := do
  let authLength ← product 64 treeHeight n
  let selector ← Selector.ofCode (← byte .signatureType)
  let version ← byte .signatureVersion
  checkVersion version.toNat 0
  let index ← varint .signatureIndex
  let r ← take n .randomizer
  let count ← byte .layerCount
  let layers ← repeated (layer n authLength limit) count.toNat
  return ⟨selector, index, r, layers⟩

/-- The signature with a given encoding, and how far the encoding was read. -/
def signature (bytes : Bytes) (n treeHeight : Nat) : Except Stop Signature × Cursor :=
  decode (signatureReader n treeHeight bytes.length) bytes

theorem follows_layerBody (n treeHeight layer : Nat) :
    Follows (layerBody n (treeHeight * n) layer)
      (TreeSignature.bodyDecoder n treeHeight layer) := by
  unfold layerBody TreeSignature.bodyDecoder
  refine (follows_take n .layerRandomizer).bind fun r _ => ?_
  refine (follows_bounded .leaf _).bind fun leaf hleaf => ?_
  have hlt : leaf < 2 ^ 32 := Nat.lt_of_le_pred (Nat.two_pow_pos 32) (le_of_yields_bounded hleaf)
  refine Follows.value (narrow_eq hlt) ?_
  refine follows_remaining.bind fun left _ => ?_
  have hne : Error.truncated .authenticationPath ≠ .unequalOperands := nofun
  refine Follows.guard_throw hne fun hpath => ?_
  -- the path fits, so the difference is the length of the one-time signature
  refine Follows.value (difference_eq (Nat.le_of_not_lt hpath)) ?_
  refine (follows_take _ .oneTimeSignature).bind fun ots _ => ?_
  refine (follows_take _ .authenticationPath).bind fun auth _ => ?_
  exact Follows.pure _

/-- A layer is read as it is without checks; its body is a buffer of its own. -/
theorem follows_layer (n treeHeight limit : Nat) :
    Follows (layer n (treeHeight * n) limit) (TreeSignature.decoder n treeHeight limit) := by
  unfold layer TreeSignature.decoder
  refine (follows_entry .layer).bind fun number _ => ?_
  refine (follows_bounded .layerBodyLength limit).bind fun length _ => ?_
  refine (follows_take length .layerBody).bind fun body _ => ?_
  exact Follows.lift ((follows_layerBody n treeHeight number.toNat).decode body).1

theorem selector_ofCode_ne (code : UInt8) : Selector.ofCode code ≠ .error .unequalOperands := by
  unfold Selector.ofCode
  split_ifs <;> nofun

/-- **A signature is read as it is without checks.** -/
theorem follows_signatureReader {n treeHeight : Nat} (h : treeHeight * n < 2 ^ 64) (limit : Nat) :
    Follows (signatureReader n treeHeight limit) (Signature.decoder n treeHeight limit) := by
  unfold signatureReader Signature.decoder
  refine Follows.value (product_eq h) ?_
  refine (follows_byte .signatureType).bind fun code _ => ?_
  refine (Follows.refusal (selector_ofCode_ne code)).bind fun selector _ => ?_
  refine (follows_byte .signatureVersion).bind fun version _ => ?_
  refine (Follows.refusal (checkVersion_ne _ _)).bind fun _ _ => ?_
  refine (follows_varint .signatureIndex).bind fun index _ => ?_
  refine (follows_take n .randomizer).bind fun r _ => ?_
  refine (follows_byte .layerCount).bind fun count _ => ?_
  refine ((follows_layer n treeHeight limit).repeated count.toNat).bind fun layers _ => ?_
  exact Follows.pure _

/-- **Signatures are read without a breach**, and no more layers than there are bytes. -/
theorem unbreached_signature {p : Header} (hv : p.Valid) (bytes : Bytes) :
    Unbreached (signature bytes p.n p.treeHeight).1 (Signature.ofBytes bytes p.n p.treeHeight) ∧
      (signature bytes p.n p.treeHeight).2.entries ≤ bytes.length := by
  have hsize : p.n ≤ 64 := by
    unfold Header.n
    cases p.digest <;> decide
  have hlength : p.treeHeight * p.n ≤ 20 * 64 := Nat.mul_le_mul hv.treeHeight_le hsize
  exact (follows_signatureReader (by omega) bytes.length).decode bytes

end Hypertree.Checked
