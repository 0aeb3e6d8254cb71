import Hypertree.Engine

/-!
# The single-tree engine

A key with one layer is one tree whose leaf is the signing index. This engine is the one-layer case
of the multi-tree engine and shares its keys, caches and encodings; its signatures are bare tree
signatures.
-/

namespace Hypertree

/-- An engine for keys of one layer. -/
structure SingleTree where
  engine : Engine

namespace SingleTree

/-- An engine for the given parameters, which must describe one layer. -/
def create (suite : Suite) (params : Params) : Except Error SingleTree := do
  unless params.layers = 1 do
    throw (.invalidParameter .notSingleLayer)
  let engine ← Engine.create suite params
  return ⟨engine⟩

/-- The one tree signature of a signature over one layer. -/
def treeSignature (s : Signature) : Except Error TreeSignature :=
  match s.layers with
  | [] => .error (.encoding .noLayers)
  | signature :: _ => .ok signature

variable (e : SingleTree)

/-- Signs a message at the next index. -/
def sign (key : PrivateKey) (message : Bytes) : Except Error TreeSignature × PrivateKey :=
  let (signature, key) := e.engine.sign key message .primary
  (signature.bind treeSignature, key)

/-- Signs a message at a committed index. -/
def signCommitted (key : PrivateKey) (committed : CommittedIndex) (message : Bytes) :
    Except Error TreeSignature × PrivateKey :=
  let (signature, key) := e.engine.signCommitted key committed message .primary
  (signature.bind treeSignature, key)

/-- Whether a tree signature of a message is valid for a public key. -/
def verify (signature : TreeSignature) (message : Bytes) (key : PublicKey) : Except Error Bool :=
  e.engine.verify signature.toSignature message key

/-- Whether an encoded signature of a message is valid for an encoded public key. -/
def verifyBytes (signature message key : Bytes) : Except Error Bool :=
  e.engine.verifyBytes signature message key

/-- Drops the cached nodes that no signature from the next index on can use. Returns how many. -/
def evict (key : PrivateKey) : Nat × PrivateKey :=
  e.engine.evict key

/-- A single-tree engine as a signer. -/
def signer : StatefulSigner where
  generate := e.engine.generate
  sign key message :=
    let (signature, key) := e.sign key message
    (signature.map fun s => s.toSignature.toBytes, key)
  verify := e.verifyBytes
  remaining := PrivateKey.remaining

end SingleTree

end Hypertree
