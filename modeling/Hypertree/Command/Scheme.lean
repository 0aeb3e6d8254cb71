import Hypertree.Command.Arguments
import Hypertree.Command.Input
import Hypertree.Engine
import Hypertree.Params.File

/-!
# Parameters of commands

A parameter comes from the options, else from the parameter file, else it has its default. A command
that uses a private key then takes geometry and digests from the key, whatever was given.
-/

namespace Hypertree.Command

namespace SchemeOptions

/-- The cache policy that the options ask for, if any. -/
def cachePolicy (o : SchemeOptions) : Option CachePolicy :=
  match o.cache, o.cacheLevels with
  | some .full, _ => some .full
  | some .disabled, _ => some .disabled
  | some .auto, levels => some (.auto (levels.getD 4))
  | none, some levels => some (.auto levels)
  | none, none => none

/-- The parameters of the file, or the defaults without one. -/
def base (source : Source) (o : SchemeOptions) : Except Failure Params :=
  match o.parameterFile with
  | none => .ok {}
  | some path => do
    let text ← readText source path (.readParameterFile path)
    match Params.read? text with
    | none => throw .invalidParameterFile
    | some p => return p

/-- Parameters with those replaced that the options give. -/
def override (o : SchemeOptions) (p : Params) : Params where
  digest := o.digest.getD p.digest
  backupDigest := o.backupDigest.or p.backupDigest
  height := o.height.getD p.height
  layers := o.layers.getD p.layers
  nonceExponent := o.nonceExponent.getD p.nonceExponent
  winternitz := o.winternitz.getD p.winternitz
  cache := o.cachePolicy.getD p.cache
  workers := o.workers.getD p.workers

/-- Parameters that satisfy every constraint. -/
def checked (failure : Error → Failure) (p : Params) : Except Failure Params :=
  match p.validate with
  | .error e => .error (failure e)
  | .ok () => .ok p

/-- The parameters of the options, the file and the defaults, in this order of precedence. -/
def resolve (source : Source) (o : SchemeOptions) : Except Failure Params := do
  let p ← o.base source
  checked .invalidParameters (o.override p)

/-- The same with the geometry and digests of a key. -/
def forKey (source : Source) (o : SchemeOptions) (key : PrivateKey) : Except Failure Params := do
  let p ← o.resolve source
  checked .invalidHeader { p with toHeader := key.header }

end SchemeOptions

/-- An engine for the given parameters. -/
def engine (suite : Suite) (p : Params) : Except Failure Engine :=
  (Engine.create suite p).mapError .engine

end Hypertree.Command
