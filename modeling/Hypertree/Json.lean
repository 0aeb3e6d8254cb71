import Hypertree.Text

/-!
# JSON

`Json.read?` reads a whole text as one JSON value, by the grammar of the standard. What a reader of
parameters needs is kept and no more: a number is kept if it is a natural number written as an
integer of at most `maxDigits` digits, and a string if its escapes form characters; the members of an
object stay in order and may repeat a name.
-/

namespace Hypertree

/-- A JSON value. -/
inductive Json where
  | null
  | bool (value : Bool)
  /-- A number; `none` for one with a sign, a fraction or an exponent, or with too many digits. -/
  | number (value : Option Nat)
  /-- A string; `none` for one with half of a surrogate pair alone. -/
  | string (value : Option String)
  | array (items : List Json)
  | object (members : List (Option String × Json))

namespace Json

/-- Whether a character is white space between tokens. -/
def isSpace (c : Char) : Bool :=
  c == ' ' || c == '\n' || c == '\t' || c == '\r'

/-- The text from the next token on. -/
def skipSpace (text : Text) : Text :=
  text.dropWhile isSpace

/-- The text after a character that must come next. -/
def expect? (c : Char) : Text → Option Text
  | [] => none
  | x :: rest => if x = c then some rest else none

/-- The text after a word that must come next. -/
def word? (word text : Text) : Option Text :=
  if word.isPrefixOf text then some (text.drop word.length) else none

/-- The digits at the front of a text, and the rest. -/
def digits (text : Text) : Text × Text :=
  text.span Char.isDigit

/-- The value of decimal digits. -/
def digitsValue (digits : Text) : Nat :=
  digits.foldl (fun value c => 10 * value + (c.toNat - '0'.toNat)) 0

/-- The most digits of a number that is kept. -/
def maxDigits : Nat := 20

/-- An integer without sign: a zero, or digits that do not start with one. Its value is kept up to
`maxDigits` digits. -/
def integer? (text : Text) : Option (Option Nat × Text) :=
  match digits text with
  | ([], _) => none
  | (['0'], rest) => some (some 0, rest)
  | ('0' :: _, _) => none
  | (ds, rest) =>
    some (if ds.length ≤ maxDigits then some (digitsValue ds) else none, rest)

/-- The text after a fraction, if there is one. -/
def fraction? : Text → Option (Bool × Text)
  | '.' :: rest =>
    match digits rest with
    | ([], _) => none
    | (_, rest) => some (true, rest)
  | text => some (false, text)

/-- The text after an exponent, if there is one. -/
def exponent? : Text → Option (Bool × Text)
  | c :: rest =>
    if c = 'e' ∨ c = 'E' then
      let rest := match rest with
        | '+' :: rest => rest
        | '-' :: rest => rest
        | rest => rest
      match digits rest with
      | ([], _) => none
      | (_, rest) => some (true, rest)
    else some (false, c :: rest)
  | [] => some (false, [])

/-- A number. -/
def number? (text : Text) : Option (Json × Text) := do
  let (signed, text) := match text with
    | '-' :: rest => (true, rest)
    | text => (false, text)
  let (value, text) ← integer? text
  let (fractional, text) ← fraction? text
  let (scaled, text) ← exponent? text
  return (.number (if signed || fractional || scaled then none else value), text)

/-- The number of four hexadecimal digits. -/
def unit? (a b c d : Char) : Option Nat := do
  let a ← Text.hexValue? a
  let b ← Text.hexValue? b
  let c ← Text.hexValue? c
  let d ← Text.hexValue? d
  return ((a * 16 + b) * 16 + c) * 16 + d

/-- The character that a one-letter escape stands for. -/
def escape? (c : Char) : Option Char :=
  match c with
  | '"' => some '"'
  | '\\' => some '\\'
  | '/' => some '/'
  | 'b' => some '\x08'
  | 'f' => some '\x0c'
  | 'n' => some '\n'
  | 'r' => some '\r'
  | 't' => some '\t'
  | _ => none

/-- The 16-bit units of a string after its opening quote, and the text after the closing one.
Characters are given as their code points, escaped units as they are. -/
def units? : Text → Option (List (Nat ⊕ Char) × Text)
  | [] => none
  | '"' :: rest => some ([], rest)
  | '\\' :: 'u' :: a :: b :: c :: d :: rest => do
    let unit ← unit? a b c d
    let (units, rest) ← units? rest
    return (.inl unit :: units, rest)
  | '\\' :: e :: rest => do
    let c ← escape? e
    let (units, rest) ← units? rest
    return (.inr c :: units, rest)
  | c :: rest =>
    if c = '\\' ∨ c.toNat < 0x20 then none
    else do
      let (units, rest) ← units? rest
      return (.inr c :: units, rest)

/-- The characters of a string: two escaped units that form a surrogate pair are one character, and
neither half may stand alone. -/
def characters? : List (Nat ⊕ Char) → Option Text
  | [] => some []
  | .inr c :: rest => (characters? rest).map (c :: ·)
  | .inl high :: .inl low :: rest =>
    if 0xd800 ≤ high ∧ high < 0xdc00 then
      if 0xdc00 ≤ low ∧ low < 0xe000 then
        let code := 0x10000 + (high - 0xd800) * 0x400 + (low - 0xdc00)
        (characters? rest).map (Char.ofNat code :: ·)
      else none
    else if 0xdc00 ≤ high ∧ high < 0xe000 then none
    else (characters? (.inl low :: rest)).map (Char.ofNat high :: ·)
  | .inl unit :: rest =>
    if 0xd800 ≤ unit ∧ unit < 0xe000 then none
    else (characters? rest).map (Char.ofNat unit :: ·)

/-- A string after its opening quote. -/
def string? (text : Text) : Option (Option String × Text) := do
  let (units, rest) ← units? text
  return ((characters? units).map String.ofList, rest)

mutual

/-- A value, preceded by white space; `fuel` bounds the number of steps. -/
def value? : (fuel : Nat) → Text → Option (Json × Text)
  | 0, _ => none
  | fuel + 1, text =>
    match skipSpace text with
    | [] => none
    | '"' :: rest => (string? rest).map fun (s, rest) => (.string s, rest)
    | '[' :: rest =>
      match skipSpace rest with
      | ']' :: rest => some (.array [], rest)
      | rest => (items? fuel rest).map fun (items, rest) => (.array items, rest)
    | '\x7b' :: rest =>
      match skipSpace rest with
      | '\x7d' :: rest => some (.object [], rest)
      | rest => (members? fuel rest).map fun (members, rest) => (.object members, rest)
    | 'n' :: rest => (word? "ull".toList rest).map (.null, ·)
    | 't' :: rest => (word? "rue".toList rest).map (.bool true, ·)
    | 'f' :: rest => (word? "alse".toList rest).map (.bool false, ·)
    | text => number? text

/-- The items of an array that is not empty, up to its closing bracket. -/
def items? : (fuel : Nat) → Text → Option (List Json × Text)
  | 0, _ => none
  | fuel + 1, text => do
    let (item, rest) ← value? fuel text
    match skipSpace rest with
    | ',' :: rest =>
      let (items, rest) ← items? fuel rest
      return (item :: items, rest)
    | ']' :: rest => return ([item], rest)
    | _ => none

/-- The members of an object that is not empty, up to its closing brace. -/
def members? : (fuel : Nat) → Text → Option (List (Option String × Json) × Text)
  | 0, _ => none
  | fuel + 1, text => do
    let rest ← expect? '"' (skipSpace text)
    let (name, rest) ← string? rest
    let rest ← expect? ':' (skipSpace rest)
    let (value, rest) ← value? fuel rest
    match skipSpace rest with
    | ',' :: rest =>
      let (members, rest) ← members? fuel rest
      return ((name, value) :: members, rest)
    | '\x7d' :: rest => return ([(name, value)], rest)
    | _ => none

end

/-- The JSON value that a text consists of. -/
def read? (text : Text) : Option Json := do
  let (value, rest) ← value? (2 * text.length + 2) text
  if (skipSpace rest).isEmpty then some value else none

end Json

end Hypertree
