import Hypertree.Key
import Hypertree.Signature.Codec

/-!
# Keys as bytes

A private key is written as version, index, header, seeds, roots, node caches and nonce table.
Integers that grow with the trees are variable-length; an absent backup root is written as zeros.
The cursors of the caches are not written, as the index determines them. A public key is the two
roots and the public seed, `3 * n` bytes.

Reading checks every count against the header and every position against its tree, so a decoded key
can be used without further checks.
-/

namespace Hypertree

namespace NodeCache

/-- A node with its position. -/
def entryBytes (e : (Nat × Nat) × Bytes) : Bytes :=
  UInt8.ofNat e.1.1 :: (Bytes.varint (UInt64.ofNat e.1.2) ++ e.2)

/-- The nodes of a cache, preceded by their number. -/
def toBytes (c : NodeCache) : Bytes :=
  Bytes.varint (UInt64.ofNat c.size) ++ c.nodes.entries.flatMap entryBytes

/-- Reads `count` nodes of `n` bytes into a cache of a tree. -/
def nodesDecoder (n treeHeight : Nat) : (count : Nat) → NodeCache → Decoder NodeCache
  | 0, c => return c
  | count + 1, c => do
    let height ← Decoder.byte .nodeHeight
    if treeHeight < height.toNat then
      Decoder.fault .nodeHeightRange
    let index ← Decoder.bounded .nodeIndex (2 ^ (treeHeight - height.toNat) - 1)
    let node ← Decoder.take n .cachedNode
    nodesDecoder n treeHeight count (c.insert height.toNat index node)

end NodeCache

namespace Caches

/-- A tree cache with its place. -/
def entryBytes (e : (Nat × Nat) × NodeCache) : Bytes :=
  UInt8.ofNat e.1.1 :: (Bytes.varint (UInt64.ofNat e.1.2) ++ e.2.toBytes)

/-- The caches of a key, preceded by their number. -/
def toBytes (c : Caches) : Bytes :=
  Bytes.varint (UInt64.ofNat c.treeCount) ++ c.trees.entries.flatMap entryBytes

/-- Reads `count` tree caches of a key with the given header and index. -/
def treesDecoder (header : Header) (index : Nat) : (count : Nat) → Caches → Decoder Caches
  | 0, c => return c
  | count + 1, c => do
    let layer ← Decoder.byte .cacheLayer
    let layer := layer.toNat
    if header.layers ≤ layer then
      Decoder.fault .cacheLayerRange
    let tree ← Decoder.varint .cacheTree
    if 2 ^ (header.height - (layer + 1) * header.treeHeight) ≤ tree then
      Decoder.fault .cacheTreeRange
    if (c.tree? layer tree).isSome then
      Decoder.fault .duplicateTreeCache
    let nodeCount ← Decoder.varint .nodeCount
    let cursor := leafIndex index layer header.treeHeight
    let cache ← NodeCache.nodesDecoder header.n header.treeHeight nodeCount (.empty cursor)
    treesDecoder header index count (c.insertTree layer tree cache)

end Caches

namespace NonceTable

/-- The nonce pairs one after another. -/
def toBytes (table : NonceTable) : Bytes :=
  table.entries.toList.flatMap Nonce.toBytes

/-- The nonce pair of eight bytes. -/
def nonceOfBytes (bytes : Bytes) : Nonce :=
  ⟨UInt32.ofNat (Bytes.ofBigEndian (bytes.take 4)),
   UInt32.ofNat (Bytes.ofBigEndian (bytes.drop 4))⟩

/-- The table of `count` nonce pairs written in a byte string. -/
def ofBytes (count : Nat) (bytes : Bytes) : NonceTable :=
  ⟨((Bytes.pieces 8 count bytes).map nonceOfBytes).toArray⟩

end NonceTable

namespace PrivateKey

/-- Version, index and header. -/
def headerBytes (key : PrivateKey) : Bytes :=
  [versionMajor, versionMinor] ++ (Bytes.varint (UInt64.ofNat key.index) ++
    ([UInt8.ofNat key.header.height, UInt8.ofNat key.header.layers] ++
      (Bytes.varint (UInt64.ofNat key.nonces.size) ++
        [key.header.digest.code, Digest.optionalCode key.header.backupDigest,
          UInt8.ofNat key.header.nonceExponent])))

/-- A string preceded by its length. -/
def prefixedBytes (bytes : Bytes) : Bytes :=
  Bytes.varint (UInt64.ofNat bytes.length) ++ bytes

/-- Seeds and roots; an absent backup root is zeros. -/
def seedBytes (key : PrivateKey) : Bytes :=
  key.publicSeed ++ (prefixedBytes key.secretSeed ++ (prefixedBytes key.secretPrf ++
    (key.root ++ key.backupRoot.getD (Bytes.zeros key.header.n))))

/-- An encoded private key. -/
def toBytes (key : PrivateKey) : Bytes :=
  key.headerBytes ++ (key.seedBytes ++ (key.caches.toBytes ++ key.nonces.toBytes))

/-- A private key. -/
def decoder : Decoder PrivateKey := do
  let major ← Decoder.byte .version
  let minor ← Decoder.byte .version
  checkVersion major.toNat minor.toNat
  let index ← Decoder.varint .index
  let height ← Decoder.byte .height
  let layers ← Decoder.byte .layers
  let leafCount ← Decoder.varint .leafCount
  let digest ← Digest.ofCode (← Decoder.byte .hashType)
  let backupDigest ← Digest.ofOptionalCode (← Decoder.byte .backupHashType)
  let nonceExponent ← Decoder.byte .nonceExponent
  let header : Header := ⟨digest, backupDigest, height.toNat, layers.toNat, nonceExponent.toNat⟩
  ({ toHeader := header } : Params).validate
  if leafCount ≠ header.leavesPerTree then
    Decoder.fault .leafCountMismatch
  if header.maxSignatures < index then
    Decoder.fault .indexBeyondLast
  let publicSeed ← Decoder.take header.n .publicSeed
  let secretSeed ← Decoder.prefixed header.n .secretSeed
  let secretPrf ← Decoder.prefixed header.n .secretPrf
  let root ← Decoder.take header.n .root
  let backupBytes ← Decoder.take header.n .backupRoot
  if backupDigest.isNone && !Bytes.isZero backupBytes then
    Decoder.fault .backupRootWithoutHash
  let backupRoot := if backupDigest.isSome then some backupBytes else none
  let cacheCount ← Decoder.varint .cacheCount
  let caches ← Caches.treesDecoder header index cacheCount .empty
  let table ← Decoder.take (leafCount * 8) .nonceTable
  return { header, index, publicSeed, secretSeed, secretPrf, root, backupRoot, caches
           nonces := .ofBytes leafCount table }

/-- The private key with a given encoding. -/
def ofBytes (bytes : Bytes) : Except Error PrivateKey :=
  decoder.decode bytes

end PrivateKey

namespace PublicKey

/-- An encoded public key. -/
def toBytes (key : PublicKey) : Bytes :=
  key.root ++ (key.backupRoot.getD (Bytes.zeros key.root.length) ++ key.publicSeed)

/-- The public key with a given encoding, under a digest. A backup root of zeros stands for none. -/
def ofBytes (bytes : Bytes) (digest : Digest) : Except Error PublicKey :=
  let n := digest.size
  if bytes.length = 3 * n then
    let backupRoot := (bytes.drop n).take n
    .ok ⟨bytes.take n, if Bytes.isZero backupRoot then none else some backupRoot,
      bytes.drop (2 * n)⟩
  else .error (.invalidLength .publicKey (3 * n) bytes.length)

end PublicKey

end Hypertree
