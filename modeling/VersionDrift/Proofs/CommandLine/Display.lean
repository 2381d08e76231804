import VersionDrift.Proofs.CommandLine.Valid
import VersionDrift.Proofs.Run.Agreement
import VersionDrift.Proofs.Run.Project

/-!
# A diff is for display only

A run that has to show a diff rewrites the manifest in check mode, too, and may fail
there; without a diff it would report a mismatch. Both exit with the same code, and the
diff has no part in what is stored.
-/

set_option autoImplicit false

namespace VersionDrift

def Outcome.succeeds : Except Failure Outcome → Bool
  | .ok o => o.agrees
  | .error _ => false

theorem Answer.exitCode_ofResult (r : Except Failure Outcome) :
    (ofResult r).exitCode = if Outcome.succeeds r then 0 else 1 := by
  rcases r with f | _ | _ | _ <;> rfl

theorem Answer.exitCode_eq_zero_iff (r : Except Failure Outcome) :
    (ofResult r).exitCode = 0 ↔ ∃ o, ofResult r = .finished o ∧ o.agrees = true := by
  rw [exitCode_ofResult]
  rcases r with f | o
  · simp [ofResult, Outcome.succeeds]
  · cases h : o.agrees <;> simp [ofResult, Outcome.succeeds, h]

namespace Disk

variable {d d' : Disk} {s : Settings} {mode : Mode} {w : Bool}

theorem agrees_of_run_sync {o : Outcome} (h : d.run s .sync w = (.ok o, d')) :
    o.agrees = true := by
  rcases run_cases d s .sync w with ⟨f, hrun⟩ | ⟨header, v, before, m, -, -, -, -,
    ⟨-, hrun⟩ | ⟨-, hmode, -⟩ | ⟨-, -, new, diff, l, d₁, -, -, -, hrun⟩⟩
  · rw [hrun] at h
    cases h
  · rw [hrun] at h
    cases h
    rfl
  · cases hmode
  · rw [hrun] at h
    cases h
    rfl

theorem disk_of_not_succeeds (h : Outcome.succeeds (d.run s mode w).1 = false) :
    (d.run s mode w).2 = d := by
  rcases run_cases d s mode w with ⟨f, hrun⟩ | ⟨header, v, before, m, -, -, -, -,
    ⟨-, hrun⟩ | ⟨-, -, mismatch, diff, hrun⟩ | ⟨-, -, new, diff, l, d₁, -, -, -, hrun⟩⟩
  · rw [hrun]
  · rw [hrun]
  · rw [hrun]
  · rw [hrun] at h
    cases h

theorem succeeds_of_succeeds (h : Outcome.succeeds (d.run s mode w).1 = true) (w' : Bool) :
    Outcome.succeeds (d.run s mode w').1 = true ∧
      (d.run s mode w').2 = (d.run s mode w).2 := by
  rcases run_cases d s mode w with ⟨f, hrun⟩ | ⟨header, v, before, m, hheader, hversion, hbefore,
    hm, ⟨hv, hrun⟩ | ⟨-, -, mismatch, diff, hrun⟩ |
      ⟨-, hmode, new, diff, l, d₁, -, -, -, hrun⟩⟩
  · rw [hrun] at h
    cases h
  · have hsettled : Settled s d v := ⟨⟨header, hheader, hversion⟩, before, m, hbefore, hm, hv.symm⟩
    rw [hrun, hsettled.run]
    exact ⟨rfl, rfl⟩
  · rw [hrun] at h
    cases h
  · subst hmode
    obtain ⟨o', hrun'⟩ := run_sync_ok hrun w'
    rw [hrun, hrun']
    exact ⟨agrees_of_run_sync hrun', rfl⟩

/-- With a diff or without one, a run leaves the same disk, and it succeeds or it does not. -/
theorem run_wantsDiff (d : Disk) (s : Settings) (mode : Mode) (w w' : Bool) :
    Outcome.succeeds (d.run s mode w').1 = Outcome.succeeds (d.run s mode w).1 ∧
      (d.run s mode w').2 = (d.run s mode w).2 := by
  cases h : Outcome.succeeds (d.run s mode w).1 with
  | true => exact succeeds_of_succeeds h w'
  | false =>
    cases h' : Outcome.succeeds (d.run s mode w').1 with
    | true =>
      rw [(succeeds_of_succeeds h' w).1] at h
      cases h
    | false => exact ⟨rfl, by rw [disk_of_not_succeeds h, disk_of_not_succeeds h']⟩

/-- The word that asks for a diff changes neither the exit code nor the disk, and the code is zero
exactly when the versions agree in the end. -/
theorem answer_without_diff {words : List Text} {a : Arguments}
    (h : Command.ofWords words = .ok (.run a)) (d : Disk) (workDir : Text) :
    let plain := words.filter (· ≠ Arguments.diffWord)
    Command.ofWords plain = .ok (.run (a.without .diff)) ∧
      (d.answer workDir plain).1.exitCode = (d.answer workDir words).1.exitCode ∧
      (d.answer workDir plain).2 = (d.answer workDir words).2 ∧
      ((d.answer workDir words).1.exitCode = 0 ↔
        ∃ o, (d.answer workDir words).1 = .finished o ∧ o.agrees = true) := by
  intro plain
  have hplain : Command.ofWords plain = .ok (.run (a.without .diff)) :=
    Arguments.read_eq_run_iff.mpr (Arguments.read_eq_run_iff.mp h).without_diff
  have hmode : Program.mode (a.without .diff) = Program.mode a := by
    simp [Program.mode]
  have hsettings : d.settings workDir (a.without .diff) = d.settings workDir a := rfl
  refine ⟨hplain, ?_⟩
  rw [answer_eq hplain, answer_eq h, hsettings, hmode]
  cases d.settings workDir a with
  | error f => exact ⟨rfl, rfl, by simp [Answer.exitCode, Answer.failure?]⟩
  | ok s =>
    obtain ⟨hcode, hdisk⟩ := run_wantsDiff d s (Program.mode a) (a.has .diff)
      ((a.without .diff).has .diff)
    refine ⟨?_, hdisk, Answer.exitCode_eq_zero_iff _⟩
    dsimp only [Prod.map]
    rw [Answer.exitCode_ofResult, Answer.exitCode_ofResult, hcode]

/-- A manifest that cannot be rewritten: a layout fault with a diff, a mismatch without one. -/
theorem answer_without_diff_unwritable :
    let words :=
      ["--check", "--diff", "--header=h", "--manifest", "m", "--prefix=V"].map String.toList
    let plain := words.filter (· ≠ Arguments.diffWord)
    let header := "#define V_MAJOR 1\n#define V_MINOR 3\n#define V_PATCH 0\n"
    let d : Disk := ⟨[([['h']], .file 0o644 header.toUTF8),
      ([['m']], .file 0o644 "context: \x7bversion: \"1.2.0\"\x7d\n".toUTF8)], []⟩
    let workDir := "/".toList
    ∃ a, Command.ofWords words = .ok (.run a) ∧
      (d.answer workDir plain).1 ≠ (d.answer workDir words).1 ∧
      Command.ofWords plain = .ok (.run (a.without .diff)) ∧
      (d.answer workDir plain).1.exitCode = (d.answer workDir words).1.exitCode ∧
      (d.answer workDir plain).2 = (d.answer workDir words).2 ∧
      ((d.answer workDir words).1.exitCode = 0 ↔
        ∃ o, (d.answer workDir words).1 = .finished o ∧ o.agrees = true) := by
  intro words plain header d workDir
  have hwords : Command.ofWords words = .ok (.run ⟨[.diff, .check],
      [(.stem, "V".toList), (.manifest, "m".toList), (.header, "h".toList)]⟩) :=
    eq_ok_of_toOption (by decide +kernel)
  have hother : (d.answer workDir plain).1 ≠ (d.answer workDir words).1 := by decide +kernel
  exact ⟨_, hwords, hother, answer_without_diff hwords d workDir⟩

end Disk
end VersionDrift
