import VersionDrift.Proofs.Report.Printed
import VersionDrift.Proofs.Run.Preview
import VersionDrift.Proofs.Run.Project

/-!
# The diff that a command line shows

A command line with a diff prints it between the lines of an update, or alone. The
lines that are printed lead from the old manifest to the new one as long as all the
lines of the diff end in a line feed that comes after no carriage return.
-/

set_option autoImplicit false

namespace VersionDrift

namespace Report

def opening : Outcome → Text
  | .updated old new _ =>
    "Updating manifest version from ".toList ++ old ++ " to ".toList ++ new ++ "...\n".toList
  | _ => []

def closing : Outcome → Text
  | .updated _ _ _ => "Done.\n".toList
  | _ => []

end Report

namespace Disk

/-- The diff that is shown of a change of the manifest, and when the lines that are printed lead
from the old manifest to the new one. -/
theorem apply_shown_iff {words : List Text} {a : Arguments} {d d' : Disk} {workDir : Text}
    {o : Outcome} (hwords : Command.ofWords words = .ok (.run a)) (hdiff : a.has .diff = true)
    (h : d.answer workDir words = (.finished o, d')) (hchanges : ∀ v, o ≠ .synced v) :
    ∃ s before after t, d.settings workDir a = .ok s ∧
      d.read s.manifestPath = .ok before ∧
      (d.run s .sync true).2.read s.manifestPath = .ok after ∧
      Unified.diff? s.manifestPath before after = some t ∧
      (Answer.finished o).output false =
        Report.opening o ++ Report.diff false t ++ Report.closing o ∧
      (Text.Unbroken s.manifestPath →
        (Patch.apply (Report.diff false t) before = some after ↔
          ¬ ['\r', '\n'] <:+: t ∧ t.getLast? = some '\n')) := by
  rw [answer_eq hwords, hdiff] at h
  cases hs : d.settings workDir a with
  | error f =>
    rw [hs] at h
    cases h
  | ok s =>
    rw [hs] at h
    dsimp only at h
    rcases decision_modes d s with ⟨f, hf⟩ | ⟨v, hv⟩ | ⟨header, t, m, new, hread, ht, hcheck, hsync⟩
    · rw [run_of_error (hf _)] at h
      cases h
    · rw [run_of_report (hv _)] at h
      cases h
      exact absurd rfl (hchanges v)
    · obtain ⟨d₁, hrun, hafter⟩ := run_of_store hread hsync
      have happly (hpath : Text.Unbroken s.manifestPath) :
          Patch.apply (Report.diff false t) m.source = some new.source ↔
            ¬ ['\r', '\n'] <:+: t ∧ t.getLast? = some '\n' :=
        (Report.apply_printed_iff hpath ht).trans
          (Report.printed_eq_self_iff (Unified.diff?_ne_nil ht))
      refine ⟨s, m.source, new.source, t, rfl, hread, by rw [hrun]; exact hafter, ht, ?_, happly⟩
      cases hmode : Program.mode a with
      | check =>
        rw [hmode, run_of_report hcheck] at h
        cases h
        exact (List.append_nil _).symm
      | sync =>
        rw [hmode, hrun] at h
        cases h
        exact List.append_assoc _ "Done.".toList ['\n']

theorem answer_of_toOption {words : List Text} {d : Disk} {workDir : Text} {x : Answer}
    (h : (d.answer workDir words).1 = x) :
    d.answer workDir words = (x, (d.answer workDir words).2) := Prod.ext h rfl

theorem apply_shown_iff_far_return :
    let words := ["--diff", "--header=h", "--manifest=m", "--prefix=V"].map String.toList
    let header := "#define V_MAJOR 1\n#define V_MINOR 3\n#define V_PATCH 0\n"
    let manifest := "# x\r\na: 1\nb: 2\ncontext:\n  version: \"1.2.0\"\n"
    let d : Disk := ⟨[([['h']], .file 0o644 header.toUTF8),
      ([['m']], .file 0o644 manifest.toUTF8)], []⟩
    let workDir := "/".toList
    ∃ a o d', Command.ofWords words = .ok (.run a) ∧ a.has .diff = true ∧
      d.answer workDir words = (.finished o, d') ∧ (∀ v, o ≠ .synced v) ∧
      ∃ s before after t, d.settings workDir a = .ok s ∧
        d.read s.manifestPath = .ok before ∧
        (d.run s .sync true).2.read s.manifestPath = .ok after ∧
        Unified.diff? s.manifestPath before after = some t ∧
        (Answer.finished o).output false =
          Report.opening o ++ Report.diff false t ++ Report.closing o ∧
        (Text.Unbroken s.manifestPath →
          (Patch.apply (Report.diff false t) before = some after ↔
            ¬ ['\r', '\n'] <:+: t ∧ t.getLast? = some '\n')) := by
  intro words header manifest d workDir
  let t := ("--- a//m\n+++ b//m\n@@ -3,3 +3,3 @@\n b: 2\n context:\n" ++
    "-  version: \"1.2.0\"\n+  version: \"1.3.0\"\n").toList
  have hwords : Command.ofWords words = .ok (.run ⟨[.diff],
      [(.stem, "V".toList), (.manifest, "m".toList), (.header, "h".toList)]⟩) :=
    eq_ok_of_toOption (by decide +kernel)
  have hanswer : (d.answer workDir words).1 =
      .finished (.updated "1.2.0".toList "1.3.0".toList (some t)) := by decide +kernel
  exact ⟨_, _, _, hwords, rfl, answer_of_toOption hanswer, nofun,
    apply_shown_iff hwords rfl (answer_of_toOption hanswer) nofun⟩

/-- With a carriage return before each line feed the lines that are printed are not those of the
manifest. -/
theorem shown_without_returns :
    let words := ["--check", "--diff", "--header=h", "--manifest=m", "--prefix=V"].map String.toList
    let header := "#define V_MAJOR 1\n#define V_MINOR 3\n#define V_PATCH 0\n"
    let manifest := "context:\r\n  version: \"1.2.0\"\r\n"
    let updated := "context:\r\n  version: \"1.3.0\"\r\n".toList
    let d : Disk := ⟨[([['h']], .file 0o644 header.toUTF8),
      ([['m']], .file 0o644 manifest.toUTF8)], []⟩
    let workDir := "/".toList
    let s : Settings := ⟨"/h".toList, "/m".toList, "V".toList⟩
    let answer := (d.answer workDir words).1
    (∃ diff, answer = .finished (.mismatch
        ⟨s.headerPath, "1.3.0".toList, s.manifestPath, "1.2.0".toList⟩ (some diff))) ∧
      ((d.run s .sync true).2.read s.manifestPath).toOption = some updated ∧
      answer.output false = ("--- a//m\n+++ b//m\n@@ -1,2 +1,2 @@\n context:\n" ++
        "-  version: \"1.2.0\"\n+  version: \"1.3.0\"\n").toList ∧
      Patch.apply (answer.output false) manifest.toList ≠ some updated := by
  intro words header manifest updated d workDir s answer
  let diff := ("--- a//m\n+++ b//m\n@@ -1,2 +1,2 @@\n context:\r\n" ++
    "-  version: \"1.2.0\"\r\n+  version: \"1.3.0\"\r\n").toList
  have hanswer : answer = .finished (.mismatch
      ⟨s.headerPath, "1.3.0".toList, s.manifestPath, "1.2.0".toList⟩ (some diff)) := by
    decide +kernel
  clear_value answer
  subst hanswer
  exact ⟨⟨diff, rfl⟩, by decide +kernel, by decide +kernel, by decide +kernel⟩

end Disk
end VersionDrift
