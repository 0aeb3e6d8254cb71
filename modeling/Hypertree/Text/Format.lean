import Hypertree.Text.Base64

/-!
# Text forms of public keys and signatures

Public keys and signatures are stored in one of three forms: hexadecimal digits, base64, or base64
in lines of sixty-four columns between two armour lines. The reader tells them apart by their
content: armour by how it begins, then an even number of hexadecimal digits, and base64 for all
else.
-/

namespace Hypertree

/-- A text form of a byte string. -/
inductive Format where
  | hex
  | base64
  | armoured
  deriving DecidableEq, Repr

/-- What an armoured text holds. -/
inductive Label where
  | publicKey
  | signature
  deriving DecidableEq, Repr

/-- The words in the armour lines. -/
def Label.text : Label → Text
  | publicKey => "QUILL PUBLIC KEY".toList
  | signature => "QUILL SIGNATURE".toList

/-- Why a text is not a form of any byte string. -/
inductive FormatFault where
  | armour
  | armourContent
  | base64
  | hex
  deriving DecidableEq, Repr

namespace Format

/-- How every armoured text begins. -/
def armourStart : Text := "-----BEGIN".toList

/-- The number of columns of an armoured text. -/
def columns : Nat := 64

/-- The lines of `columns` characters that a text fills. -/
def wrap (text : Text) : List Text :=
  if text.length ≤ columns then
    if text.isEmpty then [] else [text]
  else text.take columns :: wrap (text.drop columns)
termination_by text.length
decreasing_by
  simp only [List.length_drop, columns] at *
  omega

/-- An armour line. -/
def armourLine (word : String) (label : Label) : Text :=
  "-----".toList ++ (word.toList ++ (' ' :: (label.text ++ "-----".toList)))

/-- A byte string in a text form. -/
def encode (data : Bytes) (format : Format) (label : Label) : Text :=
  match format with
  | .hex => Text.hex data
  | .base64 => Text.base64 data
  | .armoured =>
    armourLine "BEGIN" label ++ ('\n' :: (Text.join '\n' (wrap (Text.base64 data)) ++
      ('\n' :: armourLine "END" label)))

/-- Whether a text consists of hexadecimal digits, of which there is at least one. -/
def isHex (text : Text) : Bool :=
  !text.isEmpty && text.all fun c => (Text.hexValue? c).isSome

/-- The byte string of a text in any form. -/
def decode (text : Text) : Except FormatFault Bytes :=
  let text := Text.trim text
  if armourStart.isPrefixOf text then
    let lines := Text.lines text
    if lines.length < 3 then .error .armour
    else
      match Text.ofBase64? lines.tail.dropLast.flatten with
      | some bytes => .ok bytes
      | none => .error .armourContent
  else if isHex text && text.length % 2 = 0 then
    match Text.ofHex? text with
    | some bytes => .ok bytes
    | none => .error .hex
  else
    match Text.ofBase64? text with
    | some bytes => .ok bytes
    | none => .error .base64

end Format

end Hypertree
