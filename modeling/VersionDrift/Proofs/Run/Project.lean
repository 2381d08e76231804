import VersionDrift.CommandLine.Program
import VersionDrift.Proofs.Run.Effect

/-!
# Runs in a project

The settings are found first, and that changes nothing. The run in a project is then the
run with these settings, and what a command line leads to is its result.
-/

set_option autoImplicit false

namespace VersionDrift

def Answer.ofResult : Except Failure Outcome → Answer
  | .ok o => .finished o
  | .error f => .failed f

namespace Disk

theorem run_configuration (d : Disk) (root : Text) (explicit : Option Text) :
    (Run.configuration Disk.files root explicit).run.run d =
      (d.configuration root explicit, d) := by
  refine Prod.ext rfl ?_
  cases explicit with
  | some path =>
    simp only [Run.configuration, run_bind, run_readFile]
    cases d.readFile .config path <;> rfl
  | none =>
    have hread : (liftM (Disk.files.read (Path.join root Settings.fileName)) :
        ExceptT Failure (StateM Disk) _).run.run d =
        (.ok (d.read (Path.join root Settings.fileName)), d) := rfl
    simp only [Run.configuration, run_bind]
    rw [hread]
    cases d.read (Path.join root Settings.fileName) with
    | ok content => rfl
    | error e =>
      dsimp only
      split <;> rfl

theorem runInProject_eq (d : Disk) (root : Text) (explicit : Option Text) (o : Overrides)
    (mode : Mode) (wantsDiff : Bool) : d.runInProject root explicit o mode wantsDiff =
      match d.configuration root explicit with
      | .error f => (.error f, d)
      | .ok c => d.run (Settings.resolve root c o) mode wantsDiff := by
  simp only [runInProject, Run.inProject, run_bind, run_configuration]
  cases d.configuration root explicit <;> rfl

/-- A run in a project changes the disk by an update only, and then the content of the manifest
that the settings of the project name. -/
theorem runInProject_effect (d : Disk) (root : Text) (explicit : Option Text) (o : Overrides)
    (mode : Mode) (wantsDiff : Bool) :
    match d.runInProject root explicit o mode wantsDiff with
    | (.ok (.updated old new _), d') =>
      mode = .sync ∧ ∃ c before m rewritten l, d.configuration root explicit = .ok c ∧
        d.read (Settings.resolve root c o).manifestPath = .ok before ∧
        Manifest.load before = .ok m ∧ old = m.version ∧ m.rewrite new = .ok rewritten ∧
        d.resolve (Settings.resolve root c o).manifestPath = .ok l ∧
        Exchanged d d' l before rewritten.source
    | (_, d') => d' = d := by
  rw [runInProject_eq]
  cases hc : d.configuration root explicit with
  | error f => rfl
  | ok c =>
    dsimp only
    rcases run_cases d (Settings.resolve root c o) mode wantsDiff with ⟨f, hrun⟩ |
      ⟨header, version, before, m, -, -, hbefore, hm, ⟨-, hrun⟩ | ⟨-, -, mismatch, diff, hrun⟩ |
        ⟨-, hmode, new, diff, l, d', hnew, hl, hexchanged, hrun⟩⟩
    · rw [hrun]
    · rw [hrun]
    · rw [hrun]
    · rw [hrun]
      exact ⟨hmode, c, before, m, new, l, rfl, hbefore, hm, rfl, hnew, hl, hexchanged⟩

def settings (d : Disk) (workDir : Text) (a : Arguments) : Except Failure Settings :=
  let root := (a.value? .root).getD workDir
  (d.configuration root (a.value? .config)).map fun c =>
    Settings.resolve root c (Program.overrides a)

theorem run_outcome (d : Disk) (workDir : Text) (a : Arguments) :
    (Program.outcome Disk.files workDir a).run.run d =
      match d.settings workDir a with
      | .error f => (.error f, d)
      | .ok s => d.run s (Program.mode a) (a.has .diff) := by
  have hproject : (Program.outcome Disk.files workDir a).run.run d =
      d.runInProject ((a.value? .root).getD workDir) (a.value? .config) (Program.overrides a)
        (Program.mode a) (a.has .diff) := rfl
  rw [hproject, runInProject_eq, settings]
  cases d.configuration ((a.value? .root).getD workDir) (a.value? .config) <;> rfl

/-- A valid command line leads to a run with the settings that are found. -/
theorem answer_eq {words : List Text} {a : Arguments} (h : Command.ofWords words = .ok (.run a))
    (d : Disk) (workDir : Text) : d.answer workDir words =
      match d.settings workDir a with
      | .error f => (.failed f, d)
      | .ok s => (d.run s (Program.mode a) (a.has .diff)).map Answer.ofResult id := by
  have hanswer : d.answer workDir words =
      ((Program.outcome Disk.files workDir a).run.run d).map Answer.ofResult id := by
    unfold answer Program.answer
    rw [h]
    simp only [StateT.run, bind, StateT.bind]
    rcases (Program.outcome Disk.files workDir a).run d with ⟨_ | _, d'⟩ <;> rfl
  rw [hanswer, run_outcome]
  cases d.settings workDir a <;> rfl

end Disk
end VersionDrift
