import VersionDrift.Failure
import VersionDrift.Files.Access
import VersionDrift.Settings.Settings

/-!
# Runs

A run reads the header and then the manifest, decides what to do, and stores the
manifest if it has to. Nothing is stored unless both files have been read. In a
project the settings file tells which files these are.
-/

set_option autoImplicit false

namespace VersionDrift
namespace Run

variable {m : Type → Type} [Monad m]

def readFile (files : Files m) (kind : FileKind) (path : Text) : ExceptT Failure m Text := do
  match ← files.read path with
  | .ok t => return t
  | .error e => throw (.ofFile kind path e)

def readSettings (path content : Text) : Except Failure Configuration :=
  (Configuration.ofText content).mapError (.settings path)

/-- The settings file at a given path, or else the one in the root if its path leads anywhere. -/
def configuration (files : Files m) (root : Text) (explicit : Option Text) :
    ExceptT Failure m Configuration := do
  match explicit with
  | some path => readSettings path (← readFile files .config path)
  | none =>
    let path := Path.join root Settings.fileName
    match ← files.read path with
    | .ok content => readSettings path content
    | .error e => if e.isLookup then return .empty else throw (.ofFile .config path e)

def headerVersion (s : Settings) (content : Text) : Except Failure Triple :=
  ((MarkerSet.ofStem s.stem).read content).mapError (.header s.headerPath)

def manifestOf (s : Settings) (content : Text) : Except Failure Manifest :=
  (Manifest.load content).mapError (.ofManifest s.manifestPath)

def plan (s : Settings) (mode : Mode) (wantsDiff : Bool) (version : Triple) (manifest : Manifest) :
    Except Failure Plan :=
  (Plan.make ⟨s.headerPath, s.manifestPath, mode, wantsDiff⟩ version.dotted manifest).mapError
    (.ofManifest s.manifestPath)

def outcome (files : Files m) (s : Settings) (mode : Mode) (wantsDiff : Bool) :
    ExceptT Failure m Outcome := do
  let version ← headerVersion s (← readFile files .header s.headerPath)
  let manifest ← manifestOf s (← readFile files .manifest s.manifestPath)
  let p ← plan s mode wantsDiff version manifest
  if let some new := p.store then
    match ← files.replace s.manifestPath new.source with
    | .ok () => pure ()
    | .error e => throw (.file s.manifestPath e)
  return p.outcome

/-- The run in a project: its settings file is read first. -/
def inProject (files : Files m) (root : Text) (explicit : Option Text) (o : Overrides) (mode : Mode)
    (wantsDiff : Bool) : ExceptT Failure m Outcome := do
  let c ← configuration files root explicit
  outcome files (Settings.resolve root c o) mode wantsDiff

end Run

namespace Disk

def configuration (d : Disk) (root : Text) (explicit : Option Text) :
    Except Failure Configuration :=
  ((Run.configuration Disk.files root explicit).run.run d).1

/-- The run on a disk, and the disk after it. -/
def run (d : Disk) (s : Settings) (mode : Mode) (wantsDiff : Bool) :
    Except Failure Outcome × Disk :=
  (Run.outcome Disk.files s mode wantsDiff).run.run d

def runInProject (d : Disk) (root : Text) (explicit : Option Text) (o : Overrides) (mode : Mode)
    (wantsDiff : Bool) : Except Failure Outcome × Disk :=
  (Run.inProject Disk.files root explicit o mode wantsDiff).run.run d

end Disk

end VersionDrift
