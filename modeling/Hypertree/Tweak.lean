import Hypertree.Address
import Hypertree.Bytes.Xor
import Hypertree.Params

/-!
# Keyed hash functions

All functions digest a tag as an `n`-byte number, then a key, then the material, so no call of one
is a call of another:

| function    | tag | key         | material                                       |
|-------------|-----|-------------|------------------------------------------------|
| `f`         | 0   | `n` bytes   | `n` bytes                                      |
| `h`         | 1   | `n` bytes   | `2 * n` bytes                                  |
| `hMsg`      | 2   | randomizer  | root, index as `n` bytes, message              |
| `prf`       | 3   | `n` bytes   | 32 bytes                                       |
| `prfKeygen` | 4   | secret seed | both nonces, public seed, address              |

`hashNode` and `hashPair` are `f` and `h` under a key and masks that `prf` derives from the public
seed and the address, so equal inputs at different positions have unrelated values.
-/

namespace Hypertree

/-- A pair of numbers mixed into the derivation of the one-time key of a leaf. -/
structure Nonce where
  first : UInt32
  second : UInt32
  deriving DecidableEq, Repr

/-- The eight bytes of a nonce pair. -/
def Nonce.toBytes (nonce : Nonce) : Bytes :=
  Address.word nonce.first ++ Address.word nonce.second

/-- What fixes every keyed hash function: the hash functions, the digest in use and the parameters
of the engine. -/
structure Setting where
  suite : Suite
  digest : Digest
  params : Params

namespace Setting

variable (s : Setting)

/-- The digest size in bytes. -/
def n : Nat :=
  s.digest.size

/-- The shape of one-time keys under the digest in use. -/
def oneTime : Winternitz :=
  ⟨s.n, s.params.winternitz⟩

/-- Digests a tag, a key and the material. -/
def tagged (tag : Nat) (key material : Bytes) : Bytes :=
  s.suite.hash s.digest (Bytes.bigEndian s.n tag ++ (key ++ material))

/-- The function that steps along chains. -/
def f (key m : Bytes) : Bytes :=
  s.tagged 0 key m

/-- The function that joins two nodes. -/
def h (key m : Bytes) : Bytes :=
  s.tagged 1 key m

/-- The digest of a message that is signed at an index of the key with this root. -/
def hMsg (randomizer root : Bytes) (index : Nat) (message : Bytes) : Bytes :=
  s.tagged 2 randomizer (root ++ (Bytes.bigEndian s.n index ++ message))

/-- The function that derives keys, masks and randomizers. -/
def prf (key m : Bytes) : Bytes :=
  s.tagged 3 key m

/-- The randomizer of an index. -/
def prfIndex (key : Bytes) (index : Nat) : Bytes :=
  s.prf key (Bytes.bigEndian 32 index)

/-- The key or mask of an address. -/
def prfAddress (key : Bytes) (a : Address) : Bytes :=
  s.prf key a.toBytes

/-- The secret start of the chain at an address. -/
def prfKeygen (secretSeed : Bytes) (nonce : Nonce) (publicSeed : Bytes) (a : Address) : Bytes :=
  s.tagged 4 secretSeed (nonce.toBytes ++ (publicSeed ++ a.toBytes))

/-- One step of a chain: `f` of the masked node. -/
def hashNode (node publicSeed : Bytes) (a : Address) : Except Error Bytes := do
  let key := s.prfAddress publicSeed (a.withSelector 0)
  let mask := s.prfAddress publicSeed (a.withSelector 1)
  let masked ← Bytes.xor node mask
  return s.f key masked

/-- The parent of two nodes: `h` of both, each under its own mask. -/
def hashPair (left right publicSeed : Bytes) (a : Address) : Except Error Bytes := do
  let key := s.prfAddress publicSeed (a.withSelector 0)
  let leftMask := s.prfAddress publicSeed (a.withSelector 1)
  let rightMask := s.prfAddress publicSeed (a.withSelector 2)
  let maskedLeft ← Bytes.xor left leftMask
  let maskedRight ← Bytes.xor right rightMask
  return s.h key (maskedLeft ++ maskedRight)

@[simp]
theorem length_tagged (tag : Nat) (key material : Bytes) :
    (s.tagged tag key material).length = s.n := by
  simp [tagged, n]

end Setting

end Hypertree
