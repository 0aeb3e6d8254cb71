import Hypertree.Command.Failure
import Hypertree.Text.Format

/-!
# What commands read

A command reads whole files: texts in UTF-8, messages as they are, public keys and signatures in any
text form. A file that cannot be read is a failure that the reader's caller names.
-/

namespace Hypertree.Command

/-- Where commands find their files: the content of a path, if there is a file. -/
abbrev Source := String → Option Bytes

/-- The text of a file. -/
def readText (source : Source) (path : String) (failure : Failure) : Except Failure Text :=
  match (source path).bind Text.ofUtf8? with
  | some text => .ok text
  | none => .error failure

/-- The content of a file. -/
def readBytes (source : Source) (path : String) (failure : Failure) : Except Failure Bytes :=
  match source path with
  | some bytes => .ok bytes
  | none => .error failure

/-- The byte string in a text file. -/
def readEncoded (source : Source) (path : String) (failure : Failure) : Except Failure Bytes := do
  let text ← readText source path failure
  (Format.decode text).mapError .format

end Hypertree.Command
