import Hypertree.Key.Codec
import Hypertree.Merkle.Tree

/-!
# The multi-tree engine

An engine makes keys, signs and verifies under fixed parameters. Layer 0 signs the digest of a
message; every layer above signs the root of the tree in use in the layer below. The public root is
that of the one tree of the top layer. Lower trees are computed when an index first reaches them.

Signatures under the primary digest take nodes from the caches of the key, refill them and clean
them afterwards; those under the backup digest compute every node. Operations that change a key
return it beside their outcome, as an index stays spent and nodes stay kept when signing fails.
-/

namespace Hypertree

/-- An engine: hash functions and parameters that satisfy every constraint. -/
structure Engine where
  suite : Suite
  params : Params
  valid : params.validate = .ok ()

namespace Engine

/-- An engine for the given parameters, or the first constraint they break. -/
def create (suite : Suite) (params : Params) : Except Error Engine :=
  match h : params.validate with
  | .error e => .error e
  | .ok () => .ok ⟨suite, params, h⟩

variable (e : Engine)

/-- The keyed hash functions under the primary digest. -/
def primary : Setting :=
  ⟨e.suite, e.params.digest, e.params⟩

/-- The keyed hash functions under the backup digest, if there is one. -/
def backup? : Option Setting :=
  e.params.backupDigest.map fun d => ⟨e.suite, d, e.params⟩

/-- The keyed hash functions that a selector names. -/
def setting? : Selector → Option Setting
  | .primary => some e.primary
  | .backup => e.backup?

/-- Refuses a string that is not as long as a digest. -/
def checkLength (field : Field) (bytes : Bytes) : Except Error Unit :=
  if bytes.length = e.params.n then .ok ()
  else .error (.invalidLength field e.params.n bytes.length)

/-- The key pair that belongs to given seeds and nonces. The tree of the top layer is computed, and
its nodes are cached as the policy wants. -/
def generateFromSeeds (publicSeed secretSeed secretPrf : Bytes) (nonces : NonceTable) :
    Except Error (PrivateKey × PublicKey) := do
  e.checkLength .publicSeed publicSeed
  e.checkLength .secretSeed secretSeed
  e.checkLength .secretPrf secretPrf
  unless nonces.size = e.params.leavesPerTree do
    throw (.invalidLength .nonceTable e.params.leavesPerTree nonces.size)
  let top := e.params.layers - 1
  let seeds : Seeds := ⟨publicSeed, secretSeed, nonces⟩
  let (root, cache) := (Tree.mk e.primary seeds top 0).root (some (.empty 0))
  let root ← root
  let backupRoot ← match e.backup? with
    | none => pure none
    | some s => ((Tree.mk s seeds top 0).root none).1.map some
  let key : PrivateKey :=
    { header := e.params.toHeader, index := 0, publicSeed, secretSeed, secretPrf, root, backupRoot,
      nonces, caches := Caches.empty.insertTree top 0 (cache.getD (.empty 0)) }
  return (key, key.publicKey)

/-- A fresh key pair from random bytes: public seed, secret seed, randomizer key, nonces. -/
def generate (entropy : Entropy) : Except Error (PrivateKey × PublicKey) :=
  let n := e.params.n
  e.generateFromSeeds (entropy.bytes 0 n) (entropy.bytes n n) (entropy.bytes (2 * n) n)
    (.draw entropy (3 * n) e.params.leavesPerTree e.params.nonceExponent)

/-- Refuses a key that was made under other parameters. -/
def checkKey (key : PrivateKey) : Except Error Unit := do
  unless key.header.height = e.params.height do
    throw (.parameterMismatch .height)
  unless key.header.layers = e.params.layers do
    throw (.parameterMismatch .layers)
  unless key.header.digest = e.params.digest do
    throw (.parameterMismatch .hash)
  unless key.header.backupDigest = e.params.backupDigest do
    throw (.parameterMismatch .backupHash)
  unless key.nonces.size = e.params.leavesPerTree do
    throw (.parameterMismatch .nonceTable)

end Engine

/-- The root of a tree that has just signed a digest, as the layer above signs it: from the cache,
or recomputed from the signature and then offered to the cache. -/
def Tree.signedRoot (t : Tree) (leaf : Nat) (ots auth message : Bytes) (cache : Option NodeCache) :
    Except Error Bytes × Option NodeCache :=
  match cache.bind (·.get? t.height 0) with
  | some root => (.ok root, cache)
  | none =>
    match rootFromSignature t.setting t.seeds.publicSeed t.layer t.index leaf ots auth message with
    | .error e => (.error e, cache)
    | .ok none => (.error (.invalidParameter .inconsistentTreeSignature), cache)
    | .ok (some root) => t.offer t.height 0 (.ok root) cache

/-- Puts the cache of a tree back, if one was used. -/
def Caches.store (c : Caches) (layer tree : Nat) : Option NodeCache → Caches
  | none => c
  | some cache => c.insertTree layer tree cache

/-- The tree signatures of the `count` layers from `layer` on; the lowest of them signs `message`.
Without `cached` no cache is read or filled. -/
def signLayers (s : Setting) (seeds : Seeds) (cached : Bool) (index : Nat) (r : Bytes) :
    (count layer : Nat) → (message : Bytes) → Caches → Except Error (List TreeSignature) × Caches
  | 0, _, _, caches => (.ok [], caches)
  | count + 1, layer, message, caches =>
    let height := s.params.treeHeight
    let tree := treeIndex index layer height
    let leaf := leafIndex index layer height
    let t : Tree := ⟨s, seeds, layer, tree⟩
    let cache := if cached then some (caches.treeOrEmpty layer tree leaf) else none
    match t.sign leaf message cache with
    | (.error e, cache) => (.error e, caches.store layer tree cache)
    | (.ok (ots, auth), cache) =>
      let signature : TreeSignature := ⟨layer, r, leaf, ots, auth⟩
      -- no layer signs the root of the top one
      if count = 0 then (.ok [signature], caches.store layer tree cache)
      else
        match t.signedRoot leaf ots auth message cache with
        | (.error e, cache) => (.error e, caches.store layer tree cache)
        | (.ok root, cache) =>
          let (rest, caches) := signLayers s seeds cached index r count (layer + 1) root
            (caches.store layer tree cache)
          (rest.map (signature :: ·), caches)

/-- Climbs the layers of a signature from `layer` on, the lowest of which signs `message`, and
returns the root reached. There is none if a layer is out of place or has a wrong size. -/
def climbLayers (s : Setting) (publicSeed : Bytes) (index : Nat) (r : Bytes) :
    (layer : Nat) → (message : Bytes) → List TreeSignature → Except Error (Option Bytes)
  | _, message, [] => .ok (some message)
  | layer, message, signature :: rest => do
    let height := s.params.treeHeight
    let tree := treeIndex index layer height
    let leaf := leafIndex index layer height
    if signature.layer = layer ∧ signature.leaf = leaf ∧ signature.r = r then
      let root ← rootFromSignature s publicSeed layer tree leaf signature.ots signature.auth message
      match root with
      | none => return none
      | some root => climbLayers s publicSeed index r (layer + 1) root rest
    else return none

namespace Engine

variable (e : Engine)

/-- The hash functions and the root for a selector. -/
def signingRoot (key : PrivateKey) : Selector → Except Error (Setting × Bytes)
  | .primary => .ok (e.primary, key.root)
  | .backup =>
    match e.backup?, key.backupRoot with
    | none, _ => .error (.missingKeyMaterial .backupHash)
    | some _, none => .error (.missingKeyMaterial .backupRoot)
    | some s, some root => .ok (s, root)

/-- What has to hold before a committed index is signed with; returns the hash functions and the
root. -/
def prepare (key : PrivateKey) (committed : CommittedIndex) (selector : Selector) :
    Except Error (Setting × Bytes) := do
  e.checkKey key
  key.checkCommitted committed
  e.signingRoot key selector

/-- Drops the cached nodes that no signature from the next index on can use. Returns how many. -/
def evict (key : PrivateKey) : Nat × PrivateKey :=
  let (evicted, caches) := key.caches.clean e.params.cache e.params.treeHeight e.params.layers
    key.index e.params.maxSignatures
  (evicted, { key with caches })

/-- Signs a message at a committed index. -/
def signCommitted (key : PrivateKey) (committed : CommittedIndex) (message : Bytes)
    (selector : Selector) : Except Error Signature × PrivateKey :=
  match e.prepare key committed selector with
  | .error err => (.error err, key)
  | .ok (s, root) =>
    let index := committed.index
    let r := s.prfIndex key.secretPrf index
    let digest := s.hMsg r root index message
    -- the caches hold nodes under the primary digest
    let cached := selector == .primary
    let (layers, caches) :=
      signLayers s key.seeds cached index r e.params.layers 0 digest key.caches
    -- what was filled before a failure stays
    let key := { key with caches }
    match layers with
    | .error err => (.error err, key)
    | .ok layers =>
      (.ok ⟨selector, index, r, layers⟩, if cached then (e.evict key).2 else key)

/-- Signs a message at the next index, which is advanced in memory only. -/
def sign (key : PrivateKey) (message : Bytes) (selector : Selector) :
    Except Error Signature × PrivateKey :=
  match e.checkKey key with
  | .error err => (.error err, key)
  | .ok () =>
    match key.reserve with
    | .error err => (.error err, key)
    | .ok (reservation, key) => e.signCommitted key reservation.commit message selector

/-- The root of a public key that a selector names. -/
def verificationRoot (key : PublicKey) : Selector → Option Bytes
  | .primary => some key.root
  | .backup => key.backupRoot

/-- Whether a signature of a message is valid for a public key. -/
def verify (signature : Signature) (message : Bytes) (key : PublicKey) : Except Error Bool := do
  match e.setting? signature.selector, verificationRoot key signature.selector with
  | some s, some root =>
    if signature.layers.length = e.params.layers ∧ signature.index < e.params.maxSignatures ∧
        signature.r.length = s.n ∧ root.length = s.n ∧ key.publicSeed.length = s.n then
      let digest := s.hMsg signature.r root signature.index message
      let reached ←
        climbLayers s key.publicSeed signature.index signature.r 0 digest signature.layers
      match reached with
      | none => return false
      | some reached => return reached == root
    else return false
  | _, _ => return false

/-- Whether an encoded signature of a message is valid for an encoded public key. Fails only for
strings that cannot be read. -/
def verifyBytes (signature message key : Bytes) : Except Error Bool := do
  let key ← PublicKey.ofBytes key e.params.digest
  let signature ← Signature.ofBytes signature e.params.n e.params.treeHeight
  e.verify signature message key

end Engine

/-- The operations of a signer whose key changes with every signature, on encoded signatures. -/
structure StatefulSigner where
  /-- A fresh key pair. -/
  generate : Entropy → Except Error (PrivateKey × PublicKey)
  /-- Signs with the next index and returns the encoded signature. -/
  sign : PrivateKey → Bytes → Except Error Bytes × PrivateKey
  /-- Verifies an encoded signature of a message against an encoded public key. -/
  verify : (signature message key : Bytes) → Except Error Bool
  /-- The signatures still available. -/
  remaining : PrivateKey → Nat

/-- A multi-tree engine as a signer. -/
def Engine.signer (e : Engine) : StatefulSigner where
  generate := e.generate
  sign key message :=
    let (signature, key) := e.sign key message .primary
    (signature.map Signature.toBytes, key)
  verify := e.verifyBytes
  remaining := PrivateKey.remaining

end Hypertree
