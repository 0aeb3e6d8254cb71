import Hypertree.OneTime.Digits
import Hypertree.Schedule
import Hypertree.Tweak

/-!
# One-time signatures

The secret key of a leaf is a bundle of hash chains, one per digit. The start of each chain is
derived from the secret seed, the nonces of the leaf and the address of the chain, and is never
stored. The public key consists of the chain ends. A signature holds, for each digit, the chain
value that many steps from the start; walking the remaining steps recovers the public key.
-/

namespace Hypertree

/-- The nonce pairs of the leaves of a tree. All trees of a key share one table. -/
structure NonceTable where
  entries : Array Nonce
  deriving DecidableEq, Repr

namespace NonceTable

/-- The nonce pair of a leaf. -/
def get? (table : NonceTable) (leaf : Nat) : Option Nonce :=
  table.entries[leaf]?

/-- The number of pairs. -/
def size (table : NonceTable) : Nat :=
  table.entries.size

end NonceTable

/-- The material from which one-time keys are derived. -/
structure Seeds where
  publicSeed : Bytes
  secretSeed : Bytes
  nonces : NonceTable

/-- Walks `count` further steps of a chain; `step` is the number of the next one. -/
def walk (s : Setting) (publicSeed : Bytes) :
    (count step : Nat) → (x : Bytes) → Address → Except Error (Bytes × Address)
  | 0, _, x, a => .ok (x, a)
  | count + 1, step, x, a => do
    let a := a.setStep (UInt32.ofNat step)
    let x ← s.hashNode x publicSeed a
    walk s publicSeed count (step + 1) x a

/-- Walks `steps` steps of a chain from position `start`, and returns the value reached and the
address of the last step. There is no result if the walk would pass position `w - 1`. -/
def chain (s : Setting) (x : Bytes) (start steps : Nat) (publicSeed : Bytes) (a : Address) :
    Except Error (Option (Bytes × Address)) :=
  if start + steps ≤ s.oneTime.w - 1 then (walk s publicSeed steps start x a).map some
  else .ok none

namespace OneTime

/-- Refuses a seed that is absent or has another size than the digest. -/
def checkSeed (n : Nat) (seed : Bytes) (material : Material) (field : Field) :
    Except Error Unit :=
  if seed.isEmpty then .error (.missingKeyMaterial material)
  else if seed.length = n then .ok ()
  else .error (.invalidLength field n seed.length)

/-- Refuses seeds from which no one-time key can be derived. -/
def checkSeeds (s : Setting) (seeds : Seeds) : Except Error Unit := do
  checkSeed s.n seeds.secretSeed .secretSeed .secretSeed
  checkSeed s.n seeds.publicSeed .publicSeed .publicSeed

/-- The value `steps` positions along chain `i` of the one-time key at an address. -/
def chainFromSecret (s : Setting) (seeds : Seeds) (base : Address) (leaf i steps : Nat) :
    Except Error Bytes := do
  match seeds.nonces.get? leaf with
  | none => throw (.missingKeyMaterial .leafNonce)
  | some nonce =>
    let a := base.setChain (UInt32.ofNat i)
    let start := s.prfKeygen seeds.secretSeed nonce seeds.publicSeed a
    match ← chain s start 0 steps seeds.publicSeed a with
    | none => throw (.invalidParameter .chainStep)
    | some (x, _) => return x

/-- The public key of a leaf: its chain ends. -/
def publicKey (s : Setting) (seeds : Seeds) (layer tree leaf : Nat) : Except Error Bytes := do
  checkSeeds s seeds
  let p := s.oneTime
  let base := Address.oneTime layer tree leaf
  Schedule.mapPieces p.n (fun i _ => chainFromSecret s seeds base leaf i (p.w - 1))
    (Bytes.zeros p.signatureBytes)

/-- The signature of an `n`-byte digest with the key of a leaf. -/
def sign (s : Setting) (seeds : Seeds) (layer tree leaf : Nat) (message : Bytes) :
    Except Error Bytes := do
  checkSeeds s seeds
  let p := s.oneTime
  unless message.length = p.n do
    throw (.invalidLength .messageDigest p.n message.length)
  let digits := (p.digits message).toArray
  let base := Address.oneTime layer tree leaf
  Schedule.mapPieces p.n (fun i _ => chainFromSecret s seeds base leaf i (digits.getD i 0))
    (Bytes.zeros p.signatureBytes)

/-- The value at the end of chain `i`, from a value `digit` steps from its start. A value that lies
past the end stays as it is. -/
def finishChain (s : Setting) (publicSeed : Bytes) (base : Address) (i digit : Nat) (x : Bytes) :
    Except Error Bytes := do
  let a := base.setChain (UInt32.ofNat i)
  match ← chain s x digit (s.oneTime.w - 1 - digit) publicSeed a with
  | none => return x
  | some (x, _) => return x

/-- The public key for which a signature of a message is valid. There is none if the signature or
the message has a wrong size. -/
def recover (s : Setting) (signature message publicSeed : Bytes) (layer tree leaf : Nat) :
    Except Error (Option Bytes) :=
  let p := s.oneTime
  if signature.length = p.signatureBytes ∧ message.length = p.n then
    let digits := (p.digits message).toArray
    let base := Address.oneTime layer tree leaf
    (Schedule.mapPieces p.n (fun i x => finishChain s publicSeed base i (digits.getD i 0) x)
      signature).map some
  else .ok none

/-- Whether a signature of a message is valid for a public key. -/
def verify (s : Setting) (signature message publicKey publicSeed : Bytes)
    (layer tree leaf : Nat) : Except Error Bool := do
  match ← recover s signature message publicSeed layer tree leaf with
  | some recovered => return recovered == publicKey
  | none => return false

end OneTime

end Hypertree
