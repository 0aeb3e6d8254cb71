import Hypertree.Command.Request

/-!
# Running a command line

A command line ends with an exit code: zero when its request was carried out, one when it failed,
two when it asks for nothing that there is.
-/

namespace Hypertree.Command

/-- How a command line ends: its exit code, its output and its failure. -/
structure Report where
  code : Nat
  stdout : String
  failure : Option Failure
  deriving DecidableEq, Repr

namespace Report

/-- The report of a request that was carried out. -/
def ofOutcome : Except Failure String → Report
  | .ok stdout => ⟨0, stdout, none⟩
  | .error failure => ⟨1, "", some failure⟩

/-- The report of a misused command line. -/
def misuse : Report :=
  ⟨2, "", none⟩

/-- The report of a request for the version. -/
def version : Report :=
  ⟨0, "quill 0.1.0\n", none⟩

/-- The report of a request for help. -/
def help : Report :=
  ⟨0, "Usage: quill [-v] <keygen|sign|verify|export|import|info|evict> [OPTIONS]\n", none⟩

end Report

/-- Carries out a command line on a directory. -/
def execute (suite : Suite) (entropy : Entropy) (arguments : List String) (files : Files) :
    Files × Report :=
  match Invocation.parse arguments with
  | .misuse => (files, .misuse)
  | .version => (files, .version)
  | .help => (files, .help)
  | .request request =>
    let (files, outcome) := (request.plan suite files.read? entropy).run files
    (files, .ofOutcome outcome)

end Hypertree.Command
