import Hypertree.Json
import Hypertree.Params
import Hypertree.Text.Number

/-!
# Parameter files

A parameter file is a JSON object whose members set single parameters; absent ones keep their
defaults, unknown ones are ignored, and a repeated one is refused. An array gives the parameters in
the order of `keys`, from the first on. A choice is a string, or an object with the choice as its
one member and `null` as its value. No constraint between parameters is checked here.

`write` gives every parameter, in the order of `keys`.
-/

namespace Hypertree.Params

/-- A 32-bit number. -/
def word32? : Json → Option Nat
  | .number (some n) => if n < 2 ^ (32 : Nat) then some n else none
  | _ => none

/-- The name of a choice without arguments. -/
def choice? : Json → Option String
  | .string name => name
  | .object [(name, .null)] => name
  | _ => none

/-- The digest that a name chooses. -/
def digest? (json : Json) : Option Digest :=
  (choice? json).bind Digest.ofName?

/-- A digest or `null`. -/
def optionalDigest? : Json → Option (Option Digest)
  | .null => some none
  | json => (digest? json).map some

/-- The names of the shares of cores. -/
def workerNames : List (String × Workers) :=
  [("single", .single), ("quarter", .quarter), ("half", .half),
   ("three-quarters", .threeQuarters), ("full", .full)]

/-- The share of cores that a name chooses. -/
def workers? (json : Json) : Option Workers :=
  (choice? json).bind fun name => workerNames.lookup name

/-- The name of the one argument of the policy that keeps levels. -/
def levelsKey : String := "absolute_levels"

/-- The value of a name that occurs exactly once among the members of an object; all names must be
readable. -/
def only? (name : String) (members : List (Option String × Json)) : Option Json :=
  if members.all fun m => m.1.isSome then
    match members.filter fun m => m.1 == some name with
    | [(_, json)] => some json
    | _ => none
  else none

/-- The number of levels, as the argument of a policy. -/
def levels? : Json → Option Nat
  | .object members => (only? levelsKey members).bind word32?
  | .array [json] => word32? json
  | _ => none

/-- The policy that a name chooses, with its argument if it has one. -/
def cachePolicy? : Json → Option CachePolicy
  | .object [(some "auto", json)] => (levels? json).map .auto
  | json =>
    match choice? json with
    | some "full" => some .full
    | some "disabled" => some .disabled
    | _ => none

/-- The names of the parameters, in their order in an array. -/
def keys : List String :=
  ["hash", "backup-hash", "height", "layers", "winternitz", "nonce-exponent", "cache", "threads"]

/-- The parameters with one of them set; a name that is not a parameter sets none. -/
def set? (p : Params) (name : String) (json : Json) : Option Params :=
  match name with
  | "hash" => (digest? json).map fun digest => { p with digest }
  | "backup-hash" => (optionalDigest? json).map fun backupDigest => { p with backupDigest }
  | "height" => (word32? json).map fun height => { p with height }
  | "layers" => (word32? json).map fun layers => { p with layers }
  | "winternitz" => (word32? json).map fun winternitz => { p with winternitz }
  | "nonce-exponent" => (word32? json).map fun nonceExponent => { p with nonceExponent }
  | "cache" => (cachePolicy? json).map fun cache => { p with cache }
  | "threads" => (workers? json).map fun workers => { p with workers }
  | _ => some p

/-- The parameters with members set one after another; `seen` are the names set before. -/
def setMembers? (p : Params) (seen : List String) :
    List (Option String × Json) → Option Params
  | [] => some p
  | (none, _) :: _ => none
  | (some name, json) :: rest =>
    if seen.contains name then none
    else
      match set? p name json with
      | none => none
      | some p => setMembers? p (if keys.contains name then name :: seen else seen) rest

/-- The parameters with items set in the order of their names. -/
def setItems? (p : Params) : (names : List String) → List Json → Option Params
  | _, [] => some p
  | [], _ :: _ => none
  | name :: names, json :: rest =>
    match set? p name json with
    | none => none
    | some p => setItems? p names rest

/-- The parameters that a file gives. -/
def ofJson? : Json → Option Params
  | .object members => setMembers? {} [] members
  | .array items => setItems? {} keys items
  | _ => none

/-- The parameters in the text of a file. -/
def read? (text : Text) : Option Params :=
  (Json.read? text).bind ofJson?

/-- A name as a JSON string; names hold no character that has to be escaped. -/
def quoted (name : String) : Text :=
  '"' :: (name.toList ++ ['"'])

/-- A JSON object with the given members. -/
def objectText (members : List (String × Text)) : Text :=
  '\x7b' :: (Text.join ',' (members.map fun m => quoted m.1 ++ ':' :: m.2) ++ ['\x7d'])

/-- The name of a share of cores. -/
def workersName : Workers → String
  | .single => "single"
  | .quarter => "quarter"
  | .half => "half"
  | .threeQuarters => "three-quarters"
  | .full => "full"

/-- A policy as a JSON value. -/
def policyText : CachePolicy → Text
  | .full => quoted "full"
  | .disabled => quoted "disabled"
  | .auto levels => objectText [("auto", objectText [(levelsKey, Text.decimal levels)])]

/-- The values of the parameters, in the order of their names. -/
def valueTexts (p : Params) : List Text :=
  [quoted p.digest.name, p.backupDigest.elim "null".toList (quoted ·.name), Text.decimal p.height,
   Text.decimal p.layers, Text.decimal p.winternitz, Text.decimal p.nonceExponent,
   policyText p.cache, quoted (workersName p.workers)]

/-- The text of a file that gives every parameter. -/
def write (p : Params) : Text :=
  objectText (keys.zip (valueTexts p))

end Hypertree.Params
