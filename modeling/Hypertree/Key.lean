import Hypertree.Merkle.NodeCache
import Hypertree.OneTime
import Hypertree.Text

/-!
# Keys and indices

A private key holds one piece of changing state that must never go back: the next index. Signing
therefore takes two steps. `PrivateKey.reserve` advances the index and hands out a reservation; the
caller stores the advanced key. `Reservation.commit` then turns the reservation into a committed
index, and only such an index can be signed with. A crash in between loses an index and reuses none.

Reservations and committed indices carry a tag of the key they came from, so a key recognises those
of other keys.
-/

namespace Hypertree

/-- A supply of random bytes. -/
structure Entropy where
  byte : Nat → UInt8

namespace Entropy

/-- The given bytes over and over. -/
def cycle (bytes : Bytes) : Entropy :=
  let bytes := bytes.toArray
  ⟨fun i => bytes.getD (i % bytes.size) 0⟩

/-- The `len` bytes from a position on. -/
def bytes (e : Entropy) (start len : Nat) : Bytes :=
  (List.range len).map fun i => e.byte (start + i)

/-- The number whose four bytes start at a position, least significant first. -/
def word (e : Entropy) (start : Nat) : Nat :=
  Bytes.ofBigEndian (e.bytes start 4).reverse

end Entropy

/-- `count` nonce pairs below `2 ^ exponent`, drawn from a position on. -/
def NonceTable.draw (e : Entropy) (start count exponent : Nat) : NonceTable :=
  let bound := 2 ^ min exponent 32
  ⟨(Array.range count).map fun i =>
    ⟨UInt32.ofNat (e.word (start + 8 * i) % bound),
     UInt32.ofNat (e.word (start + 8 * i + 4) % bound)⟩⟩

/-- A verification key. -/
structure PublicKey where
  /-- The root under the primary digest. -/
  root : Bytes
  /-- The root under the backup digest, if there is one. -/
  backupRoot : Option Bytes
  publicSeed : Bytes
  deriving DecidableEq, Repr

/-- The part of a key by which reservations are recognised. -/
abbrev KeyTag := Bytes

/-- An index taken from a key and not yet released for signing. -/
structure Reservation where
  index : Nat
  tag : KeyTag
  deriving DecidableEq, Repr

/-- An index whose advance has been stored. Signing consumes it. -/
structure CommittedIndex where
  index : Nat
  tag : KeyTag
  deriving DecidableEq, Repr

/-- Confirms that the advanced key has been stored. -/
def Reservation.commit (r : Reservation) : CommittedIndex :=
  ⟨r.index, r.tag⟩

/-- A signing key. -/
structure PrivateKey where
  header : Header
  /-- The next index to reserve. -/
  index : Nat
  publicSeed : Bytes
  secretSeed : Bytes
  /-- The key of the randomizers. -/
  secretPrf : Bytes
  /-- The root under the primary digest. -/
  root : Bytes
  /-- The root under the backup digest, if there is one. -/
  backupRoot : Option Bytes
  nonces : NonceTable
  caches : Caches

namespace PrivateKey

variable (key : PrivateKey)

/-- The signatures still available. -/
def remaining : Nat :=
  key.header.maxSignatures - key.index

/-- The matching verification key. -/
def publicKey : PublicKey :=
  ⟨key.root, key.backupRoot, key.publicSeed⟩

/-- The material for one-time keys. -/
def seeds : Seeds :=
  ⟨key.publicSeed, key.secretSeed, key.nonces⟩

/-- The first eight bytes of the root and of the public seed, shorter ones filled up with zeros. -/
def tag : KeyTag :=
  (key.root ++ Bytes.zeros 8).take 8 ++ (key.publicSeed ++ Bytes.zeros 8).take 8

/-- Takes the next index and advances the key. The advanced key has to be stored before the
reservation is committed. -/
def reserve : Except Error (Reservation × PrivateKey) :=
  if key.header.maxSignatures ≤ key.index then
    .error (.keysExhausted key.header.maxSignatures)
  else .ok (⟨key.index, key.tag⟩, { key with index := key.index + 1 })

/-- Refuses a committed index that this key did not hand out. -/
def checkCommitted (committed : CommittedIndex) : Except Error Unit :=
  if key.tag = committed.tag ∧ committed.index < key.index then .ok ()
  else .error .foreignReservation

/-- What diagnostics may show of a key: nothing secret. -/
def describe : String :=
  let backup := match key.header.backupDigest with
    | none => "None"
    | some d => "Some(" ++ d.tag ++ ")"
  "PrivateKey \x7b height: " ++ toString key.header.height ++
    ", layers: " ++ toString key.header.layers ++
    ", hash: " ++ key.header.digest.tag ++
    ", backup_hash: " ++ backup ++
    ", index: " ++ toString key.index ++
    ", root: \"" ++ String.ofList (Text.hex key.root) ++
    "\", cached_nodes: " ++ toString key.caches.nodeCount ++ ", .. \x7d"

end PrivateKey

end Hypertree
