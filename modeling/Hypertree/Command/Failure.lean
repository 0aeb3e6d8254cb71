import Hypertree.Error
import Hypertree.Text.Format

/-!
# Failures of commands

Each failure of a command has a headline, and some also a cause, the error of the operation that
failed.
-/

namespace Hypertree.Command

/-- Why a command did not succeed. -/
inductive Failure where
  | readParameterFile (path : String)
  | invalidParameterFile
  | invalidParameters (cause : Error)
  | invalidHeader (cause : Error)
  | engine (cause : Error)
  | keyGeneration (cause : Error)
  | writePublicKey
  | createFile (path : String)
  | writePrivateKey
  | replaceFile (path : String)
  | readPrivateKey (path : String)
  | privateKeyNotHex
  | invalidPrivateKey (cause : Error)
  | readInput
  | cannotSign (cause : Error)
  | persistKey
  | signing (cause : Error)
  | spentIndex (index : Nat)
  | writeSignature
  | readPublicKey
  | readSignature
  | format (fault : FormatFault)
  | malformed (cause : Error)
  | notValid
  | writeBackup
  | readBackup
  | invalidBackup (cause : Error)
  deriving DecidableEq, Repr

namespace Failure

/-- The headline of a text that cannot be decoded. -/
def formatHeadline : FormatFault → String
  | .armour => "Invalid PEM format"
  | .armourContent => "Failed to decode PEM base64 content"
  | .base64 => "Failed to decode base64"
  | .hex => "Failed to decode hex"

/-- The failure in one line. -/
def headline : Failure → String
  | readParameterFile path => "Failed to read parameter file " ++ path
  | invalidParameterFile => "Invalid parameter file"
  | invalidParameters _ => "Invalid parameters"
  | invalidHeader _ => "Private key header is invalid"
  | engine cause => cause.message
  | keyGeneration _ => "Key generation failed"
  | writePublicKey => "Failed to write public key"
  | createFile path => "Failed to create " ++ path
  | writePrivateKey => "Failed to write private key"
  | replaceFile path => "Failed to replace " ++ path
  | readPrivateKey path => "Failed to read private key " ++ path
  | privateKeyNotHex => "Private key file is not hex"
  | invalidPrivateKey _ => "Invalid private key"
  | readInput => "Failed to read input file"
  | cannotSign _ => "Cannot sign"
  | persistKey => "Failed to persist the advanced key; nothing was signed"
  | signing _ => "Signing failed"
  | spentIndex index =>
    "Signature at index " ++ toString index ++
      " does not verify against the key's public root; the index is spent. " ++
      "Check the --winternitz value used at keygen"
  | writeSignature => "Failed to write signature"
  | readPublicKey => "Failed to read public key"
  | readSignature => "Failed to read signature"
  | format fault => formatHeadline fault
  | malformed _ => "Malformed signature or public key"
  | notValid => "Signature verification failed"
  | writeBackup => "Failed to write text backup"
  | readBackup => "Failed to read text backup"
  | invalidBackup _ => "Invalid text backup"

/-- The error behind the failure. -/
def cause? : Failure → Option Error
  | invalidParameters cause | invalidHeader cause | keyGeneration cause | invalidPrivateKey cause
  | cannotSign cause | signing cause | malformed cause | invalidBackup cause => some cause
  | _ => none

end Failure

end Hypertree.Command
