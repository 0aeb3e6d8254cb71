import Hypertree.Command.KeyFile
import Hypertree.Command.Scheme
import Hypertree.Key.Backup

/-!
# Requests

The plan of every request. A request reads its files first; only a request that can be met changes
any. A signing request replaces the key with the advanced one before anything else, then makes and
verifies the signature, replaces the key with the one whose caches the signature has refreshed, and
gives the signature out. So an index is spent before a signature with it exists.
-/

namespace Hypertree.Command

/-- Writes an output file. -/
def writeFile (path : String) (content : Text) (failure : Failure) : List Step :=
  [⟨.create path, failure⟩, ⟨.write path (Text.utf8 content), failure⟩]

/-- Makes a key pair. -/
def keygenPlan (suite : Suite) (source : Source) (entropy : Entropy) (scheme : SchemeOptions)
    (output : String) (format : Format) : Plan :=
  let keys : Except Failure (PrivateKey × PublicKey) := do
    let p ← scheme.resolve source
    let e ← engine suite p
    (e.generate entropy).mapError .keyGeneration
  .ofExcept keys fun (key, publicKey) =>
    let publicPath := output ++ ".pub"
    let keyPath := output ++ ".key"
    .changes (writeFile publicPath (Format.encode publicKey.toBytes format .publicKey)
        .writePublicKey ++ replaceKey keyPath key)
      (.print
        ["Public key written to: " ++ publicPath,
         "Private key written to: " ++ keyPath,
         "Signatures available: " ++ toString key.header.maxSignatures])

/-- Reads the files of a signing command and reserves an index. -/
def prepareSigning (suite : Suite) (source : Source) (keyPath input : String)
    (scheme : SchemeOptions) : Except Failure Signing := do
  let key ← readPrivateKey source keyPath
  let p ← scheme.forKey source key
  let e ← engine suite p
  (e.checkKey key).mapError .engine
  let message ← readBytes source input .readInput
  let (reservation, key) ← key.reserve.mapError .cannotSign
  return ⟨e, message, reservation, key⟩

/-- Gives out the signature that was made, and stores the key after it. The parameters may not be
those under which the key was made, so a signature that is not valid for the key is not given out,
nor are the nodes that it left in the caches stored. -/
def deliver (s : Signing) (keyPath output : String) (format : Format) :
    Except Error Signature × PrivateKey → Plan
  | (.error e, _) => .fail (.signing e)
  | (.ok signature, key) =>
    match s.engine.verify signature s.message key.publicKey with
    | .error e => .fail (.engine e)
    | .ok false => .fail (.spentIndex s.reservation.index)
    | .ok true =>
      .changes (replaceKey keyPath key ++
          writeFile output (Format.encode signature.toBytes format .signature) .writeSignature)
        (.print ["Signature written to: " ++ output])

/-- Signs a file. -/
def signPlan (suite : Suite) (source : Source) (keyPath input output : String) (format : Format)
    (scheme : SchemeOptions) : Plan :=
  .ofExcept (prepareSigning suite source keyPath input scheme) fun s =>
    .changes (replaceKeyOr .persistKey keyPath s.key) (.sign s (deliver s keyPath output format))

/-- Verifies a signature of a file. -/
def verifyPlan (suite : Suite) (source : Source) (publicKey input signature : String)
    (scheme : SchemeOptions) : Plan :=
  let valid : Except Failure Bool := do
    let p ← scheme.resolve source
    let e ← engine suite p
    let key ← readEncoded source publicKey .readPublicKey
    let signature ← readEncoded source signature .readSignature
    let message ← readBytes source input .readInput
    (e.verifyBytes signature message key).mapError .malformed
  .ofExcept valid fun valid =>
    if valid then .print ["Signature is valid."] else .fail .notValid

/-- Writes a text backup of a private key. -/
def backupPlan (suite : Suite) (source : Source) (keyPath output : String) : Plan :=
  .ofExcept (readPrivateKey source keyPath) fun key =>
    .changes (writeFile output (Backup.write suite key) .writeBackup)
      (.print ["Backup written to: " ++ output])

/-- Makes a private key file from a text backup. -/
def restorePlan (suite : Suite) (source : Source) (input output : String) : Plan :=
  let key : Except Failure PrivateKey := do
    let text ← readText source input .readBackup
    (Backup.read suite text).mapError .invalidBackup
  .ofExcept key fun key =>
    .changes (replaceKey output key)
      (.print
        ["Private key written to: " ++ output,
         "Next index: " ++ toString key.index])

/-- A name filled up with blanks to ten columns. -/
def padName (name : String) : String :=
  name ++ String.ofList (List.replicate (10 - name.length) ' ')

/-- The supported parameters. -/
def capabilities : List String :=
  ["Quill - XMSS / XMSS^MT stateful hash-based signatures", "", "Digests:"] ++
  Digest.all.map (fun d => "    " ++ padName d.name ++ " n = " ++ toString d.size ++ " bytes") ++
  ["", "Height 2-60, layers 1-12, height per layer 1-20",
   "Winternitz parameter 4, 16 or 256 (default 16)",
   "Cache policies: auto (default, 4 levels), full, disabled"]

/-- The state of a private key. -/
def keyReport (key : PrivateKey) : List String :=
  ["Height:          " ++ toString key.header.height,
   "Layers:          " ++ toString key.header.layers,
   "Hash:            " ++ key.header.digest.name,
   "Backup hash:     " ++ key.header.backupDigest.elim "none" Digest.name,
   "Next index:      " ++ toString key.index,
   "Remaining:       " ++ toString key.remaining ++ " of " ++ toString key.header.maxSignatures,
   "Root:            " ++ String.ofList (Text.hex key.root),
   "Cached trees:    " ++ toString key.caches.treeCount] ++
  key.caches.trees.entries.map fun e =>
    "    layer " ++ toString e.1.1 ++ " tree " ++ toString e.1.2 ++ ": " ++
      toString e.2.size ++ " nodes"

/-- Shows the state of a private key, or the supported parameters without one. -/
def infoPlan (source : Source) : Option String → Plan
  | none => .print capabilities
  | some path => .ofExcept (readPrivateKey source path) fun key => .print (keyReport key)

/-- Drops the cached nodes of a private key that no later signature needs. -/
def evictPlan (suite : Suite) (source : Source) (keyPath : String) (scheme : SchemeOptions) :
    Plan :=
  let keyAndEngine : Except Failure (PrivateKey × Engine) := do
    let key ← readPrivateKey source keyPath
    let p ← scheme.forKey source key
    let e ← engine suite p
    return (key, e)
  .ofExcept keyAndEngine fun (key, e) =>
    let (evicted, key) := e.evict key
    .changes (replaceKey keyPath key)
      (.print ["Evicted " ++ toString evicted ++ " nodes, " ++
        toString key.caches.nodeCount ++ " remain cached"])

/-- The plan of a request. -/
def Request.plan (suite : Suite) (source : Source) (entropy : Entropy) : Request → Plan
  | .keygen scheme output format => keygenPlan suite source entropy scheme output format
  | .sign key input output format scheme => signPlan suite source key input output format scheme
  | .verify publicKey input signature scheme =>
    verifyPlan suite source publicKey input signature scheme
  | .backup key output => backupPlan suite source key output
  | .restore input output => restorePlan suite source input output
  | .info key => infoPlan source key
  | .evict key scheme => evictPlan suite source key scheme

/-- The files that a request may read. -/
def Request.inputs : Request → List String
  | .keygen scheme _ _ => scheme.parameterFile.toList
  | .sign key input _ _ scheme => key :: input :: scheme.parameterFile.toList
  | .verify publicKey input signature scheme =>
    publicKey :: input :: signature :: scheme.parameterFile.toList
  | .backup key _ => [key]
  | .restore input _ => [input]
  | .info key => key.toList
  | .evict key scheme => key :: scheme.parameterFile.toList

end Hypertree.Command
