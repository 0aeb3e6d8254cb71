import Hypertree.Command.Report

/-!
# The command line program

Reads the files that a request names, and carries out its plan from the front to the end.
-/

namespace Hypertree.Command

/-- The content of a file, if it can be read. -/
def readFile? (path : String) : IO (Option Bytes) := do
  try
    let content ← IO.FS.readBinFile path
    return some content.toList
  catch _ => return none

/-- Carries out one effect. Returns whether it succeeded. -/
def carryOut (effect : Effect) : IO Bool := do
  try
    match effect with
    | .create path => IO.FS.writeBinFile path ByteArray.empty
    | .write path content =>
      IO.FS.withFile path .write fun file => do
        file.write (content.foldl ByteArray.push ByteArray.empty)
        file.flush
    | .rename source target => IO.FS.rename source target
    return true
  catch _ => return false

/-- Carries out a plan. -/
def carryOutPlan : Plan → IO (Except Failure String)
  | .finish outcome => return outcome
  | .change step next => do
    if ← carryOut step.effect then carryOutPlan next else return .error step.failure
  | .sign signing next => carryOutPlan (next signing.perform)

/-- Random bytes for a new key, more than any key takes. -/
def freshEntropy : IO Entropy := do
  let bytes ← IO.getRandomBytes (USize.ofNat (8 * 2 ^ maxTreeHeight + 3 * 64))
  return ⟨fun i => if h : i < bytes.size then bytes[i] else 0⟩

/-- Prints a report and returns its exit code. -/
def present (report : Report) : IO UInt32 := do
  IO.print report.stdout
  match report.failure with
  | none => pure ()
  | some failure =>
    IO.eprintln ("Error: " ++ failure.headline)
    match failure.cause? with
    | none => pure ()
    | some cause => IO.eprintln ("\nCaused by:\n    " ++ cause.message)
  return UInt32.ofNat report.code

/-- Carries out a request on the files of the machine. -/
def serve (request : Request) : IO Report := do
  let contents ← request.inputs.mapM fun path => do return (path, ← readFile? path)
  let source : Source := fun path => (contents.lookup path).join
  let entropy ← match request with
    | .keygen .. => freshEntropy
    | _ => pure ⟨fun _ => 0⟩
  return .ofOutcome (← carryOutPlan (request.plan .standard source entropy))

end Hypertree.Command

open Hypertree Command in
/-- Runs a command line. -/
def main (arguments : List String) : IO UInt32 := do
  match Invocation.parse arguments with
  | .misuse => do
    IO.eprint Report.help.stdout
    return 2
  | .version => Command.present .version
  | .help => Command.present .help
  | .request request => do
    let report ← serve request
    Command.present report
