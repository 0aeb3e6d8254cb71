import Hypertree.Bytes

/-!
# Errors

A failed operation reports a cause, not a text: which parameter, which field, which rule of an
encoding. `Error.message` is the one place where the causes are worded. A failed verification is not
an error; verification answers `false`.
-/

namespace Hypertree

/-- The named parts of keys, signatures and text backups, as errors refer to them. -/
inductive Field where
  -- the headers and bodies of binary keys and signatures
  | version
  | index
  | height
  | layers
  | leafCount
  | hashType
  | backupHashType
  | nonceExponent
  | publicSeed
  | secretSeed
  | secretPrf
  | root
  | backupRoot
  | cacheCount
  | cacheLayer
  | cacheTree
  | nodeCount
  | nodeHeight
  | nodeIndex
  | cachedNode
  | nonceTable
  | publicKey
  | signatureType
  | signatureVersion
  | signatureIndex
  | randomizer
  | layerCount
  | layer
  | layerBodyLength
  | layerBody
  | layerRandomizer
  | leaf
  | oneTimeSignature
  | authenticationPath
  | messageDigest
  | leafNonce
  -- the lines of a text backup
  | checksumLine
  | hashLine
  | backupHashLine
  | nonceExponentLine
  | publicSeedLine
  | secretSeedLine
  | secretPrfLine
  | backupRootLine
  | noncesLine
  | nonceEntry
  deriving DecidableEq, Repr

/-- The name of a field; for a line of a text backup, the word before its colon. -/
def Field.label : Field → String
  | version => "version"
  | index => "index"
  | height => "height"
  | layers => "layers"
  | leafCount => "leaf count"
  | hashType => "hash type"
  | backupHashType => "backup hash type"
  | nonceExponent => "nonce exponent"
  | publicSeed => "public seed"
  | secretSeed => "secret seed"
  | secretPrf => "secret prf"
  | root => "root"
  | backupRoot => "backup root"
  | cacheCount => "cache count"
  | cacheLayer => "cache layer"
  | cacheTree => "cache tree"
  | nodeCount => "node count"
  | nodeHeight => "node height"
  | nodeIndex => "node index"
  | cachedNode => "cached node"
  | nonceTable => "nonce table"
  | publicKey => "public key"
  | signatureType => "signature type"
  | signatureVersion => "signature version"
  | signatureIndex => "signature index"
  | randomizer => "randomizer"
  | layerCount => "layer count"
  | layer => "layer"
  | layerBodyLength => "layer body length"
  | layerBody => "layer body"
  | layerRandomizer => "layer randomizer"
  | leaf => "leaf"
  | oneTimeSignature => "one-time signature"
  | authenticationPath => "authentication path"
  | messageDigest => "message digest"
  | leafNonce => "leaf nonce"
  | checksumLine => "checksum"
  | hashLine => "hash"
  | backupHashLine => "backup-hash"
  | nonceExponentLine => "nonce-exponent"
  | publicSeedLine => "public-seed"
  | secretSeedLine => "secret-seed"
  | secretPrfLine => "secret-prf"
  | backupRootLine => "backup-root"
  | noncesLine => "nonces"
  | nonceEntry => "nonce entry"

/-- The constraints on parameters, each named for what it is about. -/
inductive ParameterFault where
  | heightRange
  | layersRange
  | heightNotDivisible
  | treeHeightRange
  | winternitz
  | cacheLevels
  | nonceExponent
  | backupSameHash
  | backupOutputSize
  | notSingleLayer
  | chainStep
  | inconsistentTreeSignature
  deriving DecidableEq, Repr

/-- The constraint in words. -/
def ParameterFault.text : ParameterFault → String
  | heightRange => "height must be between 2 and 60"
  | layersRange => "layers must be between 1 and 12"
  | heightNotDivisible => "height must be divisible by the number of layers"
  | treeHeightRange => "height per layer must be between 1 and 20"
  | winternitz => "winternitz parameter must be 4, 16 or 256"
  | cacheLevels => "cache absolute levels must be at most 20"
  | nonceExponent => "nonce exponent must be at most 32"
  | backupSameHash => "backup hash must differ from the primary hash"
  | backupOutputSize => "backup hash must have the primary hash's output size"
  | notSingleLayer => "single-tree engine requires exactly one layer"
  | chainStep => "chain step out of range"
  | inconsistentTreeSignature => "tree signature has inconsistent lengths"

/-- The parts of a key header that an engine compares with its own parameters. -/
inductive KeyPart where
  | height
  | layers
  | hash
  | backupHash
  | nonceTable
  deriving DecidableEq, Repr

/-- The name of a compared part. -/
def KeyPart.label : KeyPart → String
  | height => "height"
  | layers => "layers"
  | hash => "hash"
  | backupHash => "backup hash"
  | nonceTable => "nonce table"

/-- Key material without which an operation cannot start. -/
inductive Material where
  | secretSeed
  | publicSeed
  | leafNonce
  | backupHash
  | backupRoot
  deriving DecidableEq, Repr

/-- The name of the material. -/
def Material.label : Material → String
  | secretSeed => "secret seed"
  | publicSeed => "public seed"
  | leafNonce => "leaf nonce"
  | backupHash => "backup hash"
  | backupRoot => "backup root"

/-- The rules of the encodings; `field` is for a value that its field does not admit. -/
inductive EncodingFault where
  | field (which : Field)
  | unknownHashName
  | unknownSignatureType
  | varintOverflow
  | varintNotMinimal
  | varintTooLong
  | trailingBytes
  | leafCountMismatch
  | indexBeyondLast
  | backupRootWithoutHash
  | cacheLayerRange
  | cacheTreeRange
  | duplicateTreeCache
  | nodeHeightRange
  | emptyDocument
  | missingArmour
  | nonceCountMismatch
  | lineAfterNonces
  | noLayers
  deriving DecidableEq, Repr

/-- The broken rule in words. -/
def EncodingFault.text : EncodingFault → String
  | field which => which.label
  | unknownHashName => "unknown hash name"
  | unknownSignatureType => "unknown signature type"
  | varintOverflow => "varint overflows u64"
  | varintNotMinimal => "non-minimal varint"
  | varintTooLong => "varint longer than 10 bytes"
  | trailingBytes => "trailing bytes"
  | leafCountMismatch => "leaf count does not match tree height"
  | indexBeyondLast => "index beyond the last signature"
  | backupRootWithoutHash => "backup root without backup hash"
  | cacheLayerRange => "cache layer out of range"
  | cacheTreeRange => "cache tree out of range"
  | duplicateTreeCache => "duplicate tree cache"
  | nodeHeightRange => "node height out of range"
  | emptyDocument => "empty document"
  | missingArmour => "missing armour"
  | nonceCountMismatch => "nonce count does not match tree height"
  | lineAfterNonces => "unexpected line after nonce table"
  | noLayers => "signature has no layers"

/-- Why an operation did not produce its result. -/
inductive Error where
  /-- A parameter is outside its supported range. -/
  | invalidParameter (fault : ParameterFault)
  /-- No digest has this code. -/
  | unsupportedHash (code : UInt8)
  /-- The key was made under other parameters than the engine's. -/
  | parameterMismatch (part : KeyPart)
  /-- The encoding has another major version. -/
  | versionMismatch (expected major minor : Nat)
  /-- A field of fixed size has another length. -/
  | invalidLength (field : Field) (expected actual : Nat)
  /-- The input ended inside a field. -/
  | truncated (field : Field)
  /-- The input breaks a rule of its encoding. -/
  | encoding (fault : EncodingFault)
  /-- The checksum of a text backup does not match its body. -/
  | checksumMismatch
  /-- All `max` indices of the key have been used. -/
  | keysExhausted (max : Nat)
  /-- Key material is absent. -/
  | missingKeyMaterial (material : Material)
  /-- A committed index was presented to a key that did not hand it out. -/
  | foreignReservation
  /-- Two byte strings of different lengths were to be added. The operations of the library are used
  only on operands of one length; this outcome records a broken call, not a property of the
  input. -/
  | unequalOperands
  deriving DecidableEq, Repr

/-- The two lower-case hexadecimal digits of a byte. -/
def Error.hexByte (b : UInt8) : String :=
  String.ofList [Nat.digitChar (b.toNat / 16), Nat.digitChar (b.toNat % 16)]

/-- The kind of error in one word, for callers that tell kinds apart. -/
def Error.kind : Error → String
  | invalidParameter _ => "InvalidParameter"
  | unsupportedHash _ => "UnsupportedHash"
  | parameterMismatch _ => "ParameterMismatch"
  | versionMismatch .. => "VersionMismatch"
  | invalidLength .. => "InvalidLength"
  | truncated _ => "Truncated"
  | encoding _ => "Encoding"
  | checksumMismatch => "ChecksumMismatch"
  | keysExhausted _ => "KeysExhausted"
  | missingKeyMaterial _ => "MissingKeyMaterial"
  | foreignReservation => "ForeignReservation"
  | unequalOperands => "UnequalOperands"

/-- The error in words. -/
def Error.message : Error → String
  | invalidParameter fault => "invalid parameter: " ++ fault.text
  | unsupportedHash code => "unsupported hash type code 0x" ++ hexByte code
  | parameterMismatch part => "key does not match engine parameters: " ++ part.label
  | versionMismatch expected major minor =>
    "unsupported version " ++ toString major ++ "." ++ toString minor ++
      " (expected " ++ toString expected ++ ".x)"
  | invalidLength field expected actual =>
    "invalid " ++ field.label ++ " length: expected " ++ toString expected ++
      ", got " ++ toString actual
  | truncated field => "truncated input while reading " ++ field.label
  | encoding fault => "encoding error: " ++ fault.text
  | checksumMismatch => "checksum mismatch"
  | keysExhausted max => "keys exhausted: all " ++ toString max ++ " signatures used"
  | missingKeyMaterial material => "missing key material: " ++ material.label
  | foreignReservation => "index reservation belongs to a different key"
  | unequalOperands => "xor operands must have equal length"

end Hypertree
