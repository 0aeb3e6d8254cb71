import Hypertree.Params
import Hypertree.Text.Format
import Hypertree.Text.Number

/-!
# Command lines

A command line is a command and its options. An option is given by its long name, with the value
after an equals sign or in the next argument, or by one letter, with the value attached or in the
next argument; letters without values can be joined. A value in an argument of its own does not
begin with a dash. An option is given at most once, `-v` any number of times, before or after the
command. Arguments are judged from left to right, and the first that asks for help or is not
admitted decides.

`Invocation.parse` tells apart what a command line asks for; every misuse has the same outcome.
-/

namespace Hypertree.Command

/-- The kinds of node cache that an option can name. -/
inductive CacheChoice where
  | auto
  | full
  | disabled
  deriving DecidableEq, Repr

/-- The options that describe parameters; absent ones are left to the parameter file and
defaults. -/
structure SchemeOptions where
  parameterFile : Option String := none
  height : Option Nat := none
  layers : Option Nat := none
  winternitz : Option Nat := none
  digest : Option Digest := none
  backupDigest : Option Digest := none
  nonceExponent : Option Nat := none
  workers : Option Workers := none
  cache : Option CacheChoice := none
  cacheLevels : Option Nat := none
  deriving DecidableEq, Repr

/-- What a command line can ask for. -/
inductive Request where
  | keygen (scheme : SchemeOptions) (output : String) (format : Format)
  | sign (key input output : String) (format : Format) (scheme : SchemeOptions)
  | verify (publicKey input signature : String) (scheme : SchemeOptions)
  | backup (key output : String)
  | restore (input output : String)
  | info (key : Option String)
  | evict (key : String) (scheme : SchemeOptions)
  deriving DecidableEq, Repr

/-- The meaning of a command line. -/
inductive Invocation where
  | request (request : Request)
  | version
  | help
  | misuse
  deriving DecidableEq, Repr

/-! ### Options with values -/

/-- The values of the options given so far. -/
structure Given where
  scheme : SchemeOptions := {}
  key : Option String := none
  publicKey : Option String := none
  input : Option String := none
  output : Option String := none
  signature : Option String := none
  format : Option Format := none
  deriving DecidableEq, Repr

/-- A number that fits 32 bits; a minus sign is admitted before zero. -/
def word32? (text : String) : Option Nat :=
  match text.toList with
  | '-' :: digits =>
    if digits.head? = some '+' then none
    else (Text.readDecimal? (2 ^ (32 : Nat)) digits).filter (· = 0)
  | digits => Text.readDecimal? (2 ^ (32 : Nat)) digits

/-- The form that a name chooses. -/
def format? (name : String) : Option Format :=
  [("hex", Format.hex), ("base64", .base64), ("pem", .armoured)].lookup name

/-- The share of cores that a name chooses. -/
def workers? (name : String) : Option Workers :=
  [("single", Workers.single), ("quarter", .quarter), ("half", .half),
   ("three-quarters", .threeQuarters), ("full", .full)].lookup name

/-- The kind of cache that a name chooses. -/
def cacheChoice? (name : String) : Option CacheChoice :=
  [("auto", CacheChoice.auto), ("full", .full), ("disabled", .disabled)].lookup name

/-- A path; it is not empty. -/
def path? (text : String) : Option String :=
  if text.isEmpty then none else some text

/-- An option with a value: its long name, the letter for it if there is one, and how a value of it
joins those given before. -/
structure ValueOption where
  long : String
  letter : Option Char
  /-- The values with one more; `none` if the option does not admit it. -/
  add? : String → Given → Option Given

namespace ValueOption

/-- The option whose value, read by `read?`, is stored by `set`. It is not given twice. -/
def ofField {α : Type} (long : String) (letter : Option Char) (read? : String → Option α)
    (get? : Given → Option α) (set : α → Given → Given) : ValueOption where
  long
  letter
  add? text given :=
    if (get? given).isSome then none else (read? text).map fun value => set value given

/-- The options that describe parameters. -/
def scheme : List ValueOption :=
  [ofField "params" none path? (·.scheme.parameterFile)
      fun v g => { g with scheme.parameterFile := some v },
   ofField "height" none word32? (·.scheme.height) fun v g => { g with scheme.height := some v },
   ofField "layers" none word32? (·.scheme.layers) fun v g => { g with scheme.layers := some v },
   ofField "winternitz" (some 'w') word32? (·.scheme.winternitz)
      fun v g => { g with scheme.winternitz := some v },
   ofField "hash" none Digest.ofName? (·.scheme.digest)
      fun v g => { g with scheme.digest := some v },
   ofField "backup-hash" none Digest.ofName? (·.scheme.backupDigest)
      fun v g => { g with scheme.backupDigest := some v },
   ofField "nonce-exponent" none word32? (·.scheme.nonceExponent)
      fun v g => { g with scheme.nonceExponent := some v },
   ofField "threads" none workers? (·.scheme.workers)
      fun v g => { g with scheme.workers := some v },
   ofField "cache" none cacheChoice? (·.scheme.cache) fun v g => { g with scheme.cache := some v },
   ofField "cache-levels" none word32? (·.scheme.cacheLevels)
      fun v g => { g with scheme.cacheLevels := some v }]

/-- The private key file. -/
def key : ValueOption :=
  ofField "key" none path? (·.key) fun v g => { g with key := some v }

/-- The public key file. -/
def publicKey : ValueOption :=
  ofField "pub" none path? (·.publicKey) fun v g => { g with publicKey := some v }

/-- The file that is read. -/
def input : ValueOption :=
  ofField "input" (some 'i') path? (·.input) fun v g => { g with input := some v }

/-- The file that is written. -/
def output : ValueOption :=
  ofField "output" (some 'o') path? (·.output) fun v g => { g with output := some v }

/-- The front that the names of new key files share; it may be empty. -/
def keyName : ValueOption :=
  ofField "output" (some 'o') some (·.output) fun v g => { g with output := some v }

/-- The signature file. -/
def signature : ValueOption :=
  ofField "signature" (some 's') path? (·.signature) fun v g => { g with signature := some v }

/-- The text form of an output. -/
def format : ValueOption :=
  ofField "format" (some 'f') format? (·.format) fun v g => { g with format := some v }

end ValueOption

/-- The text form asked for, hexadecimal if none is. -/
def Given.form (given : Given) : Format :=
  given.format.getD .hex

/-! ### Reading options -/

/-- How the reading of options ends when it does not get through. -/
inductive Stop where
  | help
  | misuse
  deriving DecidableEq, Repr

/-- The letters of an argument such as `-vo`. What follows the letter of an option is its value,
with or without an equals sign; the result is an option whose value may still be to come. -/
def letters (available : List ValueOption) :
    List Char → Except Stop (Option (ValueOption × Option String))
  | [] => .ok none
  | c :: rest =>
    if c = 'v' then letters available rest
    else if c = 'h' then .error .help
    else match available.find? fun option => option.letter = some c with
      | none => .error .misuse
      | some option =>
        match rest with
        | [] => .ok (some (option, none))
        | '=' :: value => .ok (some (option, some (String.ofList value)))
        | value => .ok (some (option, some (String.ofList value)))

/-- An argument that begins with two dashes. -/
def longOption (available : List ValueOption) (text : Text) :
    Except Stop (Option (ValueOption × Option String)) :=
  let long := String.ofList (text.takeWhile (· ≠ '='))
  let value := match text.dropWhile (· ≠ '=') with
    | [] => none
    | _ :: value => some (String.ofList value)
  if long = "verbose" then
    if value.isSome then .error .misuse else .ok none
  else if long = "help" then
    if value.isSome then .error .misuse else .error .help
  else match available.find? fun option => option.long = long with
    | none => .error .misuse
    | some option => .ok (some (option, value))

/-- Whether an argument cannot be the value of the option before it. -/
def isOption (argument : String) : Bool :=
  match argument.toList with
  | '-' :: _ :: _ => true
  | _ => false

/-- What one argument gives: nothing, or an option whose value may still be to come. Two dashes
alone end the options, so nothing may follow them. -/
def readOption (available : List ValueOption) (isLast : Bool) (argument : String) :
    Except Stop (Option (ValueOption × Option String)) :=
  match argument.toList with
  | ['-', '-'] => if isLast then .ok none else .error .misuse
  | '-' :: '-' :: text => longOption available text
  | '-' :: c :: text => letters available (c :: text)
  | _ => .error .misuse

/-- The values given by the arguments after a command, which takes no other arguments. `pending` is
the option whose value comes next. A value is judged when it is read, so of a value that is not
admitted and a request for help the first decides. -/
def options (available : List ValueOption) : (pending : Option ValueOption) → Given → List String →
    Except Stop Given
  | none, given, [] => .ok given
  | some _, _, [] => .error .misuse
  | some option, given, value :: rest =>
    if isOption value then .error .misuse
    else match option.add? value given with
      | none => .error .misuse
      | some given => options available none given rest
  | none, given, argument :: rest =>
    match readOption available rest.isEmpty argument with
    | .error stop => .error stop
    | .ok none => options available none given rest
    | .ok (some (option, none)) => options available (some option) given rest
    | .ok (some (option, some value)) =>
      match option.add? value given with
      | none => .error .misuse
      | some given => options available none given rest

/-! ### Commands -/

open ValueOption in
/-- The options of a command and the request that their values make; `none` if one is missing. -/
def commandOptions? (command : String) :
    Option (List ValueOption × (Given → Option Request)) :=
  match command with
  | "keygen" => some (keyName :: format :: scheme, fun given => do
    return .keygen given.scheme (← given.output) given.form)
  | "sign" => some (key :: input :: output :: format :: scheme, fun given => do
    return .sign (← given.key) (← given.input) (← given.output) given.form given.scheme)
  | "verify" => some (publicKey :: input :: signature :: scheme, fun given => do
    return .verify (← given.publicKey) (← given.input) (← given.signature) given.scheme)
  | "export" => some ([key, output], fun given => do
    return .backup (← given.key) (← given.output))
  | "import" => some ([input, output], fun given => do
    return .restore (← given.input) (← given.output))
  | "info" => some ([key], fun given => some (.info given.key))
  | "evict" => some (key :: scheme, fun given => do
    return .evict (← given.key) given.scheme)
  | _ => none

/-- Help on the whole program, or on one command. -/
def Invocation.ofHelp : List String → Invocation
  | [] => .help
  | [command] =>
    if command = "help" || (commandOptions? command).isSome then .help else .misuse
  | _ => .misuse

/-- The meaning of a command and its arguments. -/
def Invocation.ofCommand (command : String) (arguments : List String) : Invocation :=
  if command = "help" then .ofHelp arguments
  else match commandOptions? command with
    | none => .misuse
    | some (available, request?) =>
      match options available none {} arguments with
      | .error .help => .help
      | .error .misuse => .misuse
      | .ok given =>
        match request? given with
        | none => .misuse
        | some asked => .request asked

/-- The letters of an argument before the command; `none` if they ask for nothing. -/
def leadingLetters : List Char → Option Invocation
  | [] => none
  | c :: rest =>
    if c = 'v' then leadingLetters rest
    else if c = 'V' then some .version
    else if c = 'h' then some .help
    else some .misuse

/-- The meaning of a command line. -/
def Invocation.parse : List String → Invocation
  | [] => .misuse
  | argument :: rest =>
    match argument.toList with
    | ['-', '-'] => .misuse
    | '-' :: '-' :: text =>
      if text = "verbose".toList then parse rest
      else if text = "version".toList then .version
      else if text = "help".toList then .help
      else .misuse
    | '-' :: c :: text =>
      match leadingLetters (c :: text) with
      | none => parse rest
      | some invocation => invocation
    | _ => .ofCommand argument rest

end Hypertree.Command
