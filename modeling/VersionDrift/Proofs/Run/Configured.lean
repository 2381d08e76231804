import VersionDrift.Proofs.Files.Followed
import VersionDrift.Proofs.Run.Effect

/-!
# The settings file that is looked for

Without a path for it the settings file is looked for in the root, and it does not have to
be there. It counts as absent when its path leads nowhere, for whatever reason. A file
that the path leads to is read as if the path had been given, also when that fails.
-/

set_option autoImplicit false

namespace VersionDrift

/-- A result with the defaults in place of a file that is not found. -/
def Configuration.orDefaults : Except Failure Configuration → Except Failure Configuration
  | .error (.notFound _ _) => .ok .empty
  | r => r

theorem Configuration.orDefaults_eq_self {r : Except Failure Configuration}
    (h : ∀ kind path, r ≠ .error (.notFound kind path)) : orDefaults r = r := by
  unfold orDefaults
  split
  · next kind path => exact absurd rfl (h kind path)
  · rfl

theorem Settings.isName_fileName : Path.IsName Settings.fileName where
  ne_nil := by decide
  ne_self := by decide
  ne_parent := by decide
  noSlash := by decide
  noNul := by decide
  short := by decide

namespace Disk

theorem not_isLookup_of_read {d : Disk} {path : Text} {l : Location} {e : FileError}
    (hl : d.resolve path = .ok l) (h : d.read path = .error e) : e.isLookup = false := by
  simp only [read, hl, ok_bind] at h
  split at h
  · unfold textOf at h
    split at h
    · cases h
    · rw [← Except.error.inj h]; rfl
  · rw [← Except.error.inj h]; rfl

theorem read_of_resolve_error {d : Disk} {path : Text} {e : FileError}
    (h : d.resolve path = .error e) : d.read path = .error e := by
  rw [read, h]
  rfl

theorem configuration_some (d : Disk) (root path : Text) :
    d.configuration root (some path) = d.readFile .config path >>= Run.readSettings path := by
  unfold configuration Run.configuration
  simp only [run_bind, run_readFile]
  cases d.readFile .config path <;> rfl

theorem configuration_none (d : Disk) (root : Text) :
    d.configuration root none =
      match d.read (Path.join root Settings.fileName) with
      | .ok content => Run.readSettings (Path.join root Settings.fileName) content
      | .error e =>
        if e.isLookup then .ok .empty
        else .error (.ofFile .config (Path.join root Settings.fileName) e) := by
  have hread : (liftM (Disk.files.read (Path.join root Settings.fileName)) :
      ExceptT Failure (StateM Disk) _).run.run d =
      (.ok (d.read (Path.join root Settings.fileName)), d) := rfl
  unfold configuration Run.configuration
  simp only [run_bind]
  rw [hread]
  cases d.read (Path.join root Settings.fileName) with
  | ok content => rfl
  | error e =>
    dsimp only
    split <;> rfl

section

variable {d : Disk} {root path : Text} (hpath : path = Path.join root Settings.fileName)

include hpath

theorem configuration_of_resolve {l : Location} (h : d.resolve path = .ok l) :
    d.configuration root none = d.configuration root (some path) := by
  rw [configuration_none, configuration_some, readFile, ← hpath]
  cases hread : d.read path with
  | ok content => rfl
  | error e =>
    dsimp only
    rw [not_isLookup_of_read h hread]
    rfl

theorem configuration_of_resolve_error {e : FileError} (h : d.resolve path = .error e) :
    d.configuration root none = .ok .empty ∧
      d.configuration root (some path) = .error (.ofFile .config path e) := by
  rw [configuration_none, configuration_some, readFile, ← hpath, read_of_resolve_error h]
  dsimp only
  rw [isLookup_of_resolve h]
  exact ⟨rfl, rfl⟩

end

theorem configuration_ne_notFound {d : Disk} {root path : Text} {l : Location}
    (h : d.resolve path = .ok l) (kind : FileKind) (path' : Text) :
    d.configuration root (some path) ≠ .error (.notFound kind path') := by
  rw [configuration_some, readFile]
  cases hread : d.read path with
  | ok content =>
    intro hnotFound
    obtain ⟨fault, -, hsettings⟩ := mapError_eq_error hnotFound
    cases hsettings
  | error e =>
    have hthere := not_isLookup_of_read h hread
    intro hnotFound
    have hfailure : Failure.ofFile .config path e = .notFound kind path' :=
      Except.error.inj hnotFound
    obtain rfl : e = .notFound := by cases e <;> first | rfl | cases hfailure
    cases hthere

/-- Without a path for it the settings file is the one that the root leads to, and the defaults hold
when its path leads nowhere. That is what its path gives with the defaults for a file that is not
found, exactly when the path leads somewhere or ends where there is nothing. What the root itself
holds under the name, unless it is a link, is never passed over while the path fits. -/
theorem configuration_looked_for (d : Disk) (root : Text) :
    let path := Path.join root Settings.fileName
    d.configuration root none = (match d.resolve path with
      | .ok _ => d.configuration root (some path)
      | .error _ => .ok .empty) ∧
    (d.configuration root none = Configuration.orDefaults (d.configuration root (some path)) ↔
      ∀ e, d.resolve path = .error e → e = .notFound) ∧
    (d.Holds root Settings.fileName → Text.byteCount path ≤ pathLimit →
      d.configuration root none = d.configuration root (some path)) := by
  intro path
  have hheld (hholds : d.Holds root Settings.fileName) (hfits : Text.byteCount path ≤ pathLimit) :
      d.configuration root none = d.configuration root (some path) := by
    obtain ⟨k, hk⟩ := exists_resolve_of_holds Settings.isName_fileName hholds hfits
    exact configuration_of_resolve rfl hk
  cases h : d.resolve path with
  | ok l =>
    refine ⟨configuration_of_resolve rfl h, iff_of_true ?_ (by simp), hheld⟩
    rw [configuration_of_resolve rfl h,
      Configuration.orDefaults_eq_self (configuration_ne_notFound h)]
  | error e =>
    obtain ⟨hnone, hsome⟩ := configuration_of_resolve_error rfl h
    refine ⟨hnone, ?_, hheld⟩
    rw [hnone, hsome]
    cases e <;> simp [Configuration.orDefaults, Failure.ofFile]

theorem configuration_looked_for_directory :
    let d : Disk := ⟨[([Settings.fileName], .directory)], []⟩
    let path := Path.join [] Settings.fileName
    d.Holds [] Settings.fileName ∧ Text.byteCount path ≤ pathLimit ∧
      d.configuration [] none = .error (.file path .isDirectory) := by
  intro d path
  have hholds : d.Holds [] Settings.fileName :=
    ⟨[], .directory, rfl, rfl, rfl, fun _ h => nomatch h⟩
  have hfits : Text.byteCount path ≤ pathLimit := by decide
  have hsome : d.configuration [] (some path) = .error (.file path .isDirectory) := by rfl
  exact ⟨hholds, hfits, ((configuration_looked_for d []).2.2 hholds hfits).trans hsome⟩

/-- The settings file is a link to itself: it is there and cannot be read, and nothing is said. -/
theorem defaults_beside_looping_link :
    let d : Disk := ⟨[([Settings.fileName], .link Settings.fileName)], []⟩
    let path := Path.join [] Settings.fileName
    d.configuration [] none = .ok .empty ∧
      d.configuration [] (some path) = .error (.file path .tooManyLinks) ∧
      d.configuration [] none ≠ Configuration.orDefaults (d.configuration [] (some path)) := by
  intro d path
  have hnone : d.configuration [] none = .ok .empty := by rfl
  have hsome : d.configuration [] (some path) = .error (.file path .tooManyLinks) := by rfl
  refine ⟨hnone, hsome, ?_⟩
  rw [hnone, hsome]
  exact fun h => nomatch h

end Disk
end VersionDrift
