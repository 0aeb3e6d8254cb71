import Hypertree.Bytes

/-!
# Text

Text is a list of characters. This module holds what the text forms of keys and signatures need:
the UTF-8 form, hexadecimal digits, and blank characters, which are those with the Unicode property
`White_Space`.
-/

namespace Hypertree

/-- A text. -/
abbrev Text := List Char

namespace Text

/-- The UTF-8 form of a text. -/
def utf8 (text : Text) : Bytes :=
  text.flatMap String.utf8EncodeChar

/-- The text with a given UTF-8 form. -/
def ofUtf8? (bytes : Bytes) : Option Text :=
  (bytes.foldl ByteArray.push (ByteArray.emptyWithCapacity 64)).utf8Decode?.map Array.toList

/-- The size of the UTF-8 form. -/
def utf8Size (text : Text) : Nat :=
  (text.map Char.utf8Size).sum

/-- Whether a character has the Unicode property `White_Space`. -/
def isBlank (c : Char) : Bool :=
  let n := c.toNat
  (0x09 ≤ n && n ≤ 0x0d) || n = 0x20 || n = 0x85 || n = 0xa0 || n = 0x1680 ||
    (0x2000 ≤ n && n ≤ 0x200a) || n = 0x2028 || n = 0x2029 || n = 0x202f || n = 0x205f || n = 0x3000

/-- The text without blanks at its end. -/
def trimEnd (text : Text) : Text :=
  (text.reverse.dropWhile isBlank).reverse

/-- The text without blanks at either end. -/
def trim (text : Text) : Text :=
  trimEnd (text.dropWhile isBlank)

/-- The parts of a text between the occurrences of a character; one part if there are none. -/
def splitOn (separator : Char) : Text → List Text
  | [] => [[]]
  | c :: rest =>
    if c = separator then [] :: splitOn separator rest
    else match splitOn separator rest with
      | [] => [[c]]
      | part :: parts => (c :: part) :: parts

/-- The text before and after the first occurrence of a separator. -/
def splitOnce? (separator : Text) : Text → Option (Text × Text)
  | [] => if separator.isEmpty then some ([], []) else none
  | c :: rest =>
    if separator.isPrefixOf (c :: rest) then some ([], (c :: rest).drop separator.length)
    else (splitOnce? separator rest).map fun parts => (c :: parts.1, parts.2)

/-- A line without the carriage return that precedes its line feed. -/
def dropReturn (line : Text) : Text :=
  match line.getLast? with
  | some '\r' => line.dropLast
  | _ => line

/-- The lines of a text. A line ends with a line feed or a carriage return and a line feed; what
follows the last line feed is a line if it is not empty. -/
def lines (text : Text) : List Text :=
  let parts := splitOn '\n' text
  let closed := parts.dropLast.map dropReturn
  match parts.getLast? with
  | none | some [] => closed
  | some last => closed ++ [last]

/-- Texts joined with a separator between them. -/
def join (separator : Char) : List Text → Text
  | [] => []
  | [part] => part
  | part :: rest => part ++ separator :: join separator rest

/-- The lower-case hexadecimal digit of a number below sixteen. -/
def hexDigit (n : Nat) : Char :=
  Nat.digitChar n

/-- The value of a hexadecimal digit of either case. -/
def hexValue? (c : Char) : Option Nat :=
  if '0' ≤ c ∧ c ≤ '9' then some (c.toNat - '0'.toNat)
  else if 'a' ≤ c ∧ c ≤ 'f' then some (c.toNat - 'a'.toNat + 10)
  else if 'A' ≤ c ∧ c ≤ 'F' then some (c.toNat - 'A'.toNat + 10)
  else none

/-- Two lower-case hexadecimal digits per byte. -/
def hex (bytes : Bytes) : Text :=
  bytes.flatMap fun b => [hexDigit (b.toNat / 16), hexDigit (b.toNat % 16)]

/-- The bytes whose hexadecimal digits a text consists of. -/
def ofHex? : Text → Option Bytes
  | [] => some []
  | [_] => none
  | high :: low :: rest =>
    match hexValue? high, hexValue? low, ofHex? rest with
    | some h, some l, some bytes => some (UInt8.ofNat (16 * h + l) :: bytes)
    | _, _, _ => none

end Text

end Hypertree
