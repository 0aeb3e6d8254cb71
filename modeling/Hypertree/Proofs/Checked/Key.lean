import Hypertree.Key.Codec
import Hypertree.Proofs.Checked.Reader
import Hypertree.Proofs.Schedule

/-!
# Reading keys, checked

`privateKey` and `publicKey` read keys with checked operations. The counts in a private key are up
to `2 ^ 64 - 1` and the heights up to 255, whatever the length of the input. Heights are refused
when the header is checked; from then on the shifts and differences that make bounds of them are
within their domains, and counts are bounded by the input, as every tree cache and every node takes
bytes of its own (`entry`).

`unbreached_privateKey` and `unbreached_publicKey` say that the readers have the outcomes of
`PrivateKey.ofBytes` and `PublicKey.ofBytes` on every string.
-/

namespace Hypertree.Checked

/-! ### Private keys -/

/-- Reads `count` nodes of `n` bytes into a cache of a tree. -/
def nodes (n treeHeight : Nat) : (count : Nat) → NodeCache → Reader NodeCache
  | 0, c => return c
  | count + 1, c => do
    let height ← entry .nodeHeight
    if treeHeight < height.toNat then
      fault .nodeHeightRange
    let last ← lastIndex treeHeight height.toNat
    let value ← bounded .nodeIndex last
    let index ← narrow 32 value
    let node ← take n .cachedNode
    nodes n treeHeight count (c.insert height.toNat index node)

/-- Reads `count` tree caches of a key with the given header and index. -/
def trees (header : Header) (treeHeight index : Nat) : (count : Nat) → Caches → Reader Caches
  | 0, c => return c
  | count + 1, c => do
    let layer ← entry .cacheLayer
    let layer := layer.toNat
    if header.layers ≤ layer then
      fault .cacheLayerRange
    let tree ← varint .cacheTree
    let beyond ← treeBeyond header.height treeHeight layer tree
    if beyond then
      fault .cacheTreeRange
    if (c.tree? layer tree).isSome then
      fault .duplicateTreeCache
    let nodeCount ← varint .nodeCount
    let cursor ← leafIndex index layer treeHeight
    let cache ← nodes header.n treeHeight nodeCount (.empty cursor)
    trees header treeHeight index count (c.insertTree layer tree cache)

/-- The number whose four bytes start at a position. -/
def word (bytes : Bytes) (start : Nat) : Except Breach UInt32 := do
  let b0 ← element bytes start
  let b1 ← element bytes (start + 1)
  let b2 ← element bytes (start + 2)
  let b3 ← element bytes (start + 3)
  return UInt32.ofNat (Bytes.ofBigEndian [b0, b1, b2, b3])

/-- The nonce pair of eight bytes. -/
def nonce (bytes : Bytes) : Except Breach Nonce := do
  let first ← word bytes 0
  let second ← word bytes 4
  return ⟨first, second⟩

/-- The table of the nonce pairs written in a byte string. -/
def nonceTable (bytes : Bytes) : Except Breach NonceTable := do
  let pairs ← parts 8 bytes
  let nonces ← pairs.mapM nonce
  return ⟨nonces.toArray⟩

/-- A private key. -/
def privateKeyReader : Reader PrivateKey := do
  let major ← byte .version
  let minor ← byte .version
  checkVersion major.toNat minor.toNat
  let index ← varint .index
  let height ← byte .height
  let layers ← byte .layers
  let leafCount ← varint .leafCount
  let digest ← Digest.ofCode (← byte .hashType)
  let backupDigest ← Digest.ofOptionalCode (← byte .backupHashType)
  let nonceExponent ← byte .nonceExponent
  let header : Header := ⟨digest, backupDigest, height.toNat, layers.toNat, nonceExponent.toNat⟩
  validate { toHeader := header }
  let treeHeight ← treeHeight header
  let leaves ← leavesPerTree header
  if leafCount ≠ leaves then
    fault .leafCountMismatch
  let max ← maxSignatures header
  if max < index then
    fault .indexBeyondLast
  let publicSeed ← take header.n .publicSeed
  let secretSeed ← prefixed header.n .secretSeed
  let secretPrf ← prefixed header.n .secretPrf
  let root ← take header.n .root
  let backupBytes ← take header.n .backupRoot
  if backupDigest.isNone && !Bytes.isZero backupBytes then
    fault .backupRootWithoutHash
  let backupRoot := if backupDigest.isSome then some backupBytes else none
  let cacheCount ← varint .cacheCount
  let caches ← trees header treeHeight index cacheCount .empty
  let size ← product 64 leafCount 8
  let table ← take size .nonceTable
  let nonces ← nonceTable table
  return { header, index, publicSeed, secretSeed, secretPrf, root, backupRoot, caches, nonces }

/-- The private key with a given encoding, and how far the encoding was read. -/
def privateKey (bytes : Bytes) : Except Stop PrivateKey × Cursor :=
  decode privateKeyReader bytes

/-- A node is read as it is without checks, in every tree of a valid height. -/
theorem follows_nodes {p : Header} (hv : p.Valid) (n count : Nat) :
    ∀ c : NodeCache, Follows (nodes n p.treeHeight count c)
      (NodeCache.nodesDecoder n p.treeHeight count c) := by
  have htree := hv.treeHeight_le
  induction count with
  | zero => exact fun c => Follows.pure c
  | succ count ih =>
    intro c
    rw [nodes, NodeCache.nodesDecoder]
    refine (follows_entry .nodeHeight).bind fun height _ => Follows.guard fun hheight => ?_
    have hle : height.toNat ≤ p.treeHeight := Nat.le_of_not_lt hheight
    refine Follows.value (lastIndex_eq hv hle) ?_
    refine (follows_bounded .nodeIndex _).bind fun index hindex => ?_
    -- the bound is that of a level of the tree
    have hnarrow : index < 2 ^ 32 := by
      have hlast := le_of_yields_bounded hindex
      have hpow : 2 ^ (p.treeHeight - height.toNat) ≤ 2 ^ 20 :=
        Nat.pow_le_pow_right two_pos (by omega)
      omega
    refine Follows.value (narrow_eq hnarrow) ?_
    exact (follows_take n .cachedNode).bind fun node _ => ih _

/-- The caches of a key with a valid header are read as they are without checks. -/
theorem follows_trees {p : Header} (hv : p.Valid) (index count : Nat) :
    ∀ c : Caches, Follows (trees p p.treeHeight index count c)
      (Caches.treesDecoder p index count c) := by
  induction count with
  | zero => exact fun c => Follows.pure c
  | succ count ih =>
    intro c
    rw [trees, Caches.treesDecoder]
    -- field by field as the decoder reads; each operation is in range by the guard before it
    refine (follows_entry .cacheLayer).bind fun layer _ => Follows.guard fun hlayer => ?_
    have hlt : layer.toNat < p.layers := Nat.lt_of_not_le hlayer
    refine (follows_varint .cacheTree).bind fun tree _ => ?_
    refine Follows.value (treeBeyond_eq hv hlt tree) ?_
    simp only [decide_eq_true_eq]
    refine Follows.guard fun _ => Follows.guard fun _ => ?_
    refine (follows_varint .nodeCount).bind fun nodeCount _ => ?_
    refine Follows.value (leafIndex_eq hv index hlt) ?_
    exact (follows_nodes hv p.n nodeCount _).bind fun cache _ => ih _

/-- The bytes of a whole nonce pair are all there. -/
theorem nonce_eq {bytes : Bytes} (h : bytes.length = 8) :
    nonce bytes = .ok (NonceTable.nonceOfBytes bytes) := by
  match bytes, h with
  | [b0, b1, b2, b3, b4, b5, b6, b7], _ => rfl

theorem nonceTable_eq {count : Nat} {bytes : Bytes} (h : bytes.length = count * 8) :
    nonceTable bytes = .ok (.ofBytes count bytes) := by
  have hpairs : (Bytes.pieces 8 count bytes).mapM nonce
      = .ok ((Bytes.pieces 8 count bytes).map NonceTable.nonceOfBytes) :=
    mapM_eq fun x hx => nonce_eq (Bytes.length_of_mem_pieces h hx)
  rw [nonceTable, parts_eq (by decide) h, ok_bind, hpairs]
  rfl

theorem checkVersion_ne (major minor : Nat) :
    checkVersion major minor ≠ .error .unequalOperands := by
  unfold checkVersion
  split_ifs <;> nofun

theorem ofCode_ne (code : UInt8) : Digest.ofCode code ≠ .error .unequalOperands := by
  unfold Digest.ofCode
  split_ifs <;> nofun

theorem ofOptionalCode_ne (code : UInt8) :
    Digest.ofOptionalCode code ≠ .error .unequalOperands := by
  unfold Digest.ofOptionalCode
  split_ifs
  · nofun
  · exact map_ne (ofCode_ne code) some

/-- **A private key is read as it is without checks.** -/
theorem follows_privateKeyReader : Follows privateKeyReader PrivateKey.decoder := by
  unfold privateKeyReader PrivateKey.decoder
  refine (follows_byte .version).bind fun major _ => ?_
  refine (follows_byte .version).bind fun minor _ => ?_
  refine (Follows.refusal (checkVersion_ne _ _)).bind fun _ _ => ?_
  refine (follows_varint .index).bind fun index _ => ?_
  refine (follows_byte .height).bind fun height _ => ?_
  refine (follows_byte .layers).bind fun layers _ => ?_
  refine (follows_varint .leafCount).bind fun leafCount _ => ?_
  refine (follows_byte .hashType).bind fun code _ => ?_
  refine (Follows.refusal (ofCode_ne code)).bind fun digest _ => ?_
  refine (follows_byte .backupHashType).bind fun backupCode _ => ?_
  refine (Follows.refusal (ofOptionalCode_ne backupCode)).bind fun backupDigest _ => ?_
  refine (follows_byte .nonceExponent).bind fun nonceExponent _ => ?_
  refine (Follows.lift (unbreached_validate _)).bind fun _ hvalid => ?_
  -- from here on the header is valid
  have hv := Header.valid_iff_validate.mpr (eq_of_yields_lift hvalid)
  have htree := hv.treeHeight_le
  refine Follows.value (treeHeight_eq _) (Follows.value (leavesPerTree_eq hv) ?_)
  refine Follows.guard fun hleaves => Follows.value (maxSignatures_eq hv) ?_
  refine Follows.guard fun _ => ?_
  refine (follows_take _ .publicSeed).bind fun publicSeed _ => ?_
  refine (follows_prefixed _ .secretSeed).bind fun secretSeed _ => ?_
  refine (follows_prefixed _ .secretPrf).bind fun secretPrf _ => ?_
  refine (follows_take _ .root).bind fun root _ => ?_
  refine (follows_take _ .backupRoot).bind fun backupBytes _ => ?_
  refine Follows.guard fun _ => ?_
  refine (follows_varint .cacheCount).bind fun cacheCount _ => ?_
  refine (follows_trees hv index cacheCount _).bind fun caches _ => ?_
  -- there are as many leaves as in a tree
  have hcount : leafCount = 2 ^ (height.toNat / layers.toNat) := not_not.mp hleaves
  have hpow : leafCount ≤ 2 ^ 20 := by
    rw [hcount]
    exact Nat.pow_le_pow_right two_pos htree
  refine Follows.value (product_eq (by omega)) ?_
  refine (follows_take _ .nonceTable).bind fun table htable => ?_
  exact Follows.value (nonceTable_eq (length_of_yields_take htable)) (Follows.pure _)

/-- **Private keys are read without a breach**, and no more trees and nodes than there are bytes. -/
theorem unbreached_privateKey (bytes : Bytes) :
    Unbreached (privateKey bytes).1 (PrivateKey.ofBytes bytes) ∧
      (privateKey bytes).2.entries ≤ bytes.length :=
  follows_privateKeyReader.decode bytes

/-! ### Public keys -/

/-- The public key with a given encoding, under a digest. -/
def publicKey (bytes : Bytes) (digest : Digest) : Except Stop PublicKey := do
  let n := digest.size
  if bytes.length = 3 * n then
    let (root, rest) ← splitAt bytes n
    let (backupRoot, publicSeed) ← splitAt rest n
    return ⟨root, if Bytes.isZero backupRoot then none else some backupRoot, publicSeed⟩
  else refuse (.invalidLength .publicKey (3 * n) bytes.length)

/-- **Public keys are read without a breach.** -/
theorem unbreached_publicKey (bytes : Bytes) (digest : Digest) :
    Unbreached (publicKey bytes digest) (PublicKey.ofBytes bytes digest) := by
  unfold publicKey PublicKey.ofBytes
  by_cases hlen : bytes.length = 3 * digest.size
  · have hrest : digest.size ≤ (bytes.drop digest.size).length := by
      rw [List.length_drop]
      omega
    have hdrop : (bytes.drop digest.size).drop digest.size = bytes.drop (2 * digest.size) := by
      rw [List.drop_drop, two_mul]
    have hroot : digest.size ≤ bytes.length := by omega
    rw [if_pos hlen, if_pos hlen]
    simp only [splitAt_eq hroot, splitAt_eq hrest, lift_ok, ok_bind, hdrop]
    exact .ok _
  · rw [if_neg hlen, if_neg hlen]
    exact ⟨rfl, nofun⟩

end Hypertree.Checked
