import Hypertree.Command.Failure
import Hypertree.Command.Files
import Hypertree.Engine

/-!
# Plans

What a command does once it has read its files is a `Plan`: it changes files and makes signatures,
in a fixed order, and ends with an outcome. A signature is made where the plan says so, after the
changes before it have been carried out and before those that follow. A command that is cut off has
carried out the front of its plan.
-/

namespace Hypertree.Command

/-- An effect, and the failure to report if it cannot be carried out. -/
structure Step where
  effect : Effect
  failure : Failure
  deriving DecidableEq, Repr

/-- What a signing command knows before it changes anything. -/
structure Signing where
  engine : Engine
  message : Bytes
  reservation : Reservation
  /-- The key with the index advanced. -/
  key : PrivateKey

/-- The signature at the reserved index, and the key after it. -/
def Signing.perform (s : Signing) : Except Error Signature × PrivateKey :=
  s.engine.signCommitted s.key s.reservation.commit s.message .primary

/-- What a command does. -/
inductive Plan where
  /-- Nothing more. This is what the command prints, or how it fails. -/
  | finish (outcome : Except Failure String)
  /-- Changes the files and goes on; a change that cannot be carried out ends the command. -/
  | change (step : Step) (next : Plan)
  /-- Makes a signature and goes on with it. -/
  | sign (signing : Signing) (next : Except Error Signature × PrivateKey → Plan)

namespace Plan

/-- A plan that fails without changes. -/
def fail (failure : Failure) : Plan :=
  .finish (.error failure)

/-- A plan that prints lines. -/
def print (lines : List String) : Plan :=
  .finish (.ok (String.join (lines.map (· ++ "\n"))))

/-- Several changes, one after another. -/
def changes (steps : List Step) (next : Plan) : Plan :=
  steps.foldr change next

/-- The plan that follows from a value, or one that fails. -/
def ofExcept {α : Type} (value : Except Failure α) (plan : α → Plan) : Plan :=
  match value with
  | .error failure => fail failure
  | .ok value => plan value

/-- Carries out a plan: the files afterwards, and what is printed or how the command fails. -/
def run : Plan → Files → Files × Except Failure String
  | finish outcome, files => (files, outcome)
  | change step next, files =>
    match step.effect.apply? files with
    | none => (files, .error step.failure)
    | some files => run next files
  | sign signing next, files => run (next signing.perform) files

end Plan

end Hypertree.Command
