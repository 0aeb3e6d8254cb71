import Hypertree.Digest
import Hypertree.Bytes.Varint
import Hypertree.OneTime.Lengths

/-!
# Parameters

A key fixes its geometry and digests when it is made; they are its `Header`. An engine adds what may
differ between two uses of one key: the chain length, the cache policy and the number of workers.
`Params.validate` checks every constraint in a fixed order and names the first that fails.

A key of height `h` with `d` layers is a tower of trees of height `h' = h / d`. A global index
`idx < 2 ^ h` uses, in layer `l`, the leaf `(idx / 2 ^ (l * h')) % 2 ^ h'` of the tree
`idx / 2 ^ ((l + 1) * h')`: the base-`2 ^ h'` digits of `idx`, and what is left above them.
-/

namespace Hypertree

/-- The largest total height. -/
def maxHeight : Nat := 60

/-- The largest number of layers. -/
def maxLayers : Nat := 12

/-- The largest height of one tree. -/
def maxTreeHeight : Nat := 20

/-- Which computed tree nodes a key keeps. -/
inductive CachePolicy where
  /-- The reachable nodes in the given number of levels next to the root, and those on the
  authentication paths of the next two leaves. A node near the root costs a whole subtree to compute
  again and there are few of them. -/
  | auto (levels : Nat)
  /-- Every node that a later authentication path can use. -/
  | full
  /-- None. -/
  | disabled
  deriving DecidableEq, Repr

/-- The share of the machine's cores that hashing may use. It changes no result. -/
inductive Workers where
  | single
  | quarter
  | half
  | threeQuarters
  | full
  deriving DecidableEq, Repr

namespace Workers

/-- The number of workers on a machine with `cores` cores, at least one. -/
def count (workers : Workers) (cores : Nat) : Nat :=
  match workers with
  | single => 1
  | quarter => max (cores / 4) 1
  | half => max (cores / 2) 1
  | threeQuarters => max (cores * 3 / 4) 1
  | full => max cores 1

/-- Whether work is shared between threads. -/
def isParallel (workers : Workers) : Bool :=
  workers != single

end Workers

/-- What a key fixes when it is made. -/
structure Header where
  /-- The digest that builds the trees. -/
  digest : Digest := .sha256
  /-- A second digest with a root of its own. -/
  backupDigest : Option Digest := none
  /-- The total height. -/
  height : Nat := 10
  /-- The number of layers. -/
  layers : Nat := 1
  /-- Nonces are drawn below `2 ^ nonceExponent`. -/
  nonceExponent : Nat := 16
  deriving DecidableEq, Repr

/-- The parameters of an engine. -/
structure Params extends Header where
  /-- The number of positions of a one-time chain. -/
  winternitz : Nat := 16
  /-- Which computed tree nodes are kept. -/
  cache : CachePolicy := .auto 4
  /-- How many threads hash. -/
  workers : Workers := .single
  deriving DecidableEq, Repr

namespace Header

variable (p : Header)

/-- The digest size in bytes. -/
def n : Nat :=
  p.digest.size

/-- The height of one tree; zero without layers. -/
def treeHeight : Nat :=
  p.height / p.layers

/-- The leaves of one tree. -/
def leavesPerTree : Nat :=
  2 ^ p.treeHeight

/-- The signatures a key can make. -/
def maxSignatures : Nat :=
  2 ^ p.height

end Header

namespace Params

/-- Checks every constraint; the first one that fails is reported. -/
def validate (p : Params) : Except Error Unit := do
  unless 2 ≤ p.height ∧ p.height ≤ maxHeight do
    throw (.invalidParameter .heightRange)
  unless 1 ≤ p.layers ∧ p.layers ≤ maxLayers do
    throw (.invalidParameter .layersRange)
  unless p.height % p.layers = 0 do
    throw (.invalidParameter .heightNotDivisible)
  unless 1 ≤ p.treeHeight ∧ p.treeHeight ≤ maxTreeHeight do
    throw (.invalidParameter .treeHeightRange)
  unless p.winternitz = 4 ∨ p.winternitz = 16 ∨ p.winternitz = 256 do
    throw (.invalidParameter .winternitz)
  match p.cache with
  | .auto levels => unless levels ≤ maxTreeHeight do throw (.invalidParameter .cacheLevels)
  | .full | .disabled => pure ()
  unless p.nonceExponent ≤ 32 do
    throw (.invalidParameter .nonceExponent)
  match p.backupDigest with
  | none => pure ()
  | some backup =>
    unless backup ≠ p.digest do
      throw (.invalidParameter .backupSameHash)
    unless backup.size = p.digest.size do
      throw (.invalidParameter .backupOutputSize)

/-- The shape of one-time keys under the primary digest. -/
def oneTime (p : Params) : Winternitz :=
  ⟨p.n, p.winternitz⟩

end Params

/-- The leaf that a global index uses in its tree of a layer, as a 32-bit number. -/
def leafIndex (index layer treeHeight : Nat) : Nat :=
  index >>> (layer * treeHeight) % 2 ^ treeHeight % 2 ^ (32 : Nat)

/-- The tree that a global index uses in a layer. -/
def treeIndex (index layer treeHeight : Nat) : Nat :=
  index >>> ((layer + 1) * treeHeight)

namespace Params

/-- The size in bytes of one layer of an encoded signature, without its own header. -/
def layerBytes (p : Params) (index layer : Nat) : Nat :=
  p.n + Bytes.varintLength (UInt64.ofNat (leafIndex index layer p.treeHeight)) +
    p.oneTime.signatureBytes + p.treeHeight * p.n

/-- The size in bytes of the encoded signature at a global index. Variable-length integers make it
depend on the index. -/
def signatureBytes (p : Params) (index : Nat) : Nat :=
  2 + Bytes.varintLength (UInt64.ofNat index) + p.n + 1 +
    ((List.range p.layers).map fun layer =>
      1 + Bytes.varintLength (UInt64.ofNat (p.layerBytes index layer)) +
        p.layerBytes index layer).sum

end Params

end Hypertree
