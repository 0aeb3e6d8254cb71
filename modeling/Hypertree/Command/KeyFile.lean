import Hypertree.Command.Input
import Hypertree.Command.Plan

/-!
# Key files

A private key is stored as hexadecimal digits. It is replaced by writing a temporary file next to it
and renaming that, so whoever reads the file finds one whole key or another.
-/

namespace Hypertree.Command

/-- The private key in the content of a key file. -/
def privateKeyOfText (text : Text) : Except Failure PrivateKey :=
  match Text.ofHex? (Text.trim text) with
  | none => .error .privateKeyNotHex
  | some bytes => (PrivateKey.ofBytes bytes).mapError .invalidPrivateKey

/-- The private key in a file. -/
def readPrivateKey (source : Source) (path : String) : Except Failure PrivateKey := do
  let text ← readText source path (.readPrivateKey path)
  privateKeyOfText text

/-- The content of a key file. -/
def keyFileContent (key : PrivateKey) : Bytes :=
  Text.utf8 (Text.hex key.toBytes)

/-- The path of the file that is written before it replaces a key file. -/
def temporaryPath (path : String) : String :=
  path ++ ".tmp"

/-- Replaces a key file. -/
def replaceKey (path : String) (key : PrivateKey) : List Step :=
  let temporary := temporaryPath path
  [⟨.create temporary, .createFile temporary⟩,
   ⟨.write temporary (keyFileContent key), .writePrivateKey⟩,
   ⟨.rename temporary path, .replaceFile path⟩]

/-- Replaces a key file; every failure is reported as `failure`. -/
def replaceKeyOr (failure : Failure) (path : String) (key : PrivateKey) : List Step :=
  (replaceKey path key).map fun step => { step with failure }

end Hypertree.Command
