import VersionDrift.CommandLine.Arguments
import VersionDrift.Report.Lines
import VersionDrift.Run

/-!
# The program

One command line leads to one answer, and an answer to an exit code and to what is
printed. Faults of usage exit with 2; failures, a mismatch among them, with 1.
-/

set_option autoImplicit false

namespace VersionDrift

inductive Answer where
  | help
  | version
  | usage (fault : UsageFault)
  | failed (failure : Failure)
  | finished (outcome : Outcome)
deriving DecidableEq, Repr

namespace Program

variable {m : Type → Type} [Monad m]

def overrides (a : Arguments) : Overrides :=
  ⟨a.value? .header, a.value? .manifest, a.value? .stem⟩

def mode (a : Arguments) : Mode := if a.has .check then .check else .sync

/-- The run that the arguments ask for; without a root the paths are taken from `workDir`. -/
def outcome (files : Files m) (workDir : Text) (a : Arguments) : ExceptT Failure m Outcome :=
  Run.inProject files ((a.value? .root).getD workDir) (a.value? .config) (overrides a) (mode a)
    (a.has .diff)

def answer (files : Files m) (workDir : Text) (words : List Text) : m Answer := do
  match Command.ofWords words with
  | .error fault => return .usage fault
  | .ok .help => return .help
  | .ok .version => return .version
  | .ok (.run a) =>
    match ← (outcome files workDir a).run with
    | .ok o => return .finished o
    | .error f => return .failed f

def versionText : Text := "sync-version 0.1.0\n".toList

def usageText : Text := "Usage: sync-version [OPTIONS]\n".toList

def helpText : Text :=
  "Keep the recipe version in sync with the version defined in the C++ header\n\n".toList ++
  usageText ++
  ("\nOptions:\n" ++
   "      --check            Only verify the versions match; exit with an error instead of writing\n" ++
   "      --root <DIR>       Project root for relative paths (default: current directory)\n" ++
   "      --header <PATH>    Header defining the version (default: include/xeus_ocaml_config.hpp)\n" ++
   "      --manifest <PATH>  Recipe holding context.version (default: recipe/recipe-prod.yaml)\n" ++
   "      --prefix <PREFIX>  Macro prefix of the version defines (default: XEUS_OCAML_VERSION)\n" ++
   "      --config <PATH>    Config file to use instead of <root>/sync-version.toml\n" ++
   "      --diff             Show a diff of the manifest change\n" ++
   "  -v, --verbose          Enable debug logging\n" ++
   "  -h, --help             Print help\n" ++
   "  -V, --version          Print version\n").toList

end Program

namespace Answer

def failure? : Answer → Option Failure
  | failed f => some f
  | finished (.mismatch m _) => some (.mismatch m)
  | _ => none

def exitCode (a : Answer) : Nat :=
  match a with
  | usage _ => 2
  | a => if a.failure?.isSome then 1 else 0

def output (coloured : Bool) : Answer → Text
  | help => Program.helpText
  | version => Program.versionText
  | finished o => Report.outcome coloured o
  | _ => []

def errorOutput (coloured : Bool) : Answer → Text
  | usage fault => "error: ".toList ++ fault.message ++ "\n\n".toList ++ Program.usageText
  | a => a.failure?.elim [] fun f => Report.failure coloured f.message ++ ['\n']

end Answer

def Disk.answer (d : Disk) (workDir : Text) (words : List Text) : Answer × Disk :=
  (Program.answer Disk.files workDir words).run d

end VersionDrift
