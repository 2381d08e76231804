import VersionDrift.Header.Reading
import VersionDrift.Outcome
import VersionDrift.Files.Error
import VersionDrift.Settings.Fault

/-!
# Failures

What ends a run. A message names the file first and then, in most cases, the
reason. A stem too long for a pattern, which ends the program before any file is
read, has no failure here, since markers exist for every stem.
-/

set_option autoImplicit false

namespace VersionDrift

inductive FileKind where
  | header
  | manifest
  | config
deriving DecidableEq, Repr

def FileKind.label : FileKind → Text
  | header => "Header".toList
  | manifest => "Manifest".toList
  | config => "Config".toList

inductive Failure where
  | notFound (kind : FileKind) (path : Text)
  | file (path : Text) (error : FileError)
  | header (path : Text) (fault : HeaderFault)
  | notYaml (path : Text) (error : Yaml.Error)
  | layout (path : Text) (fault : LayoutFault)
  | settings (path : Text) (fault : SettingsFault)
  | mismatch (m : Mismatch)
deriving DecidableEq, Repr

namespace Failure

def ofFile (kind : FileKind) (path : Text) : FileError → Failure
  | .notFound => notFound kind path
  | e => file path e

def ofManifest (path : Text) : ManifestFault → Failure
  | .notYaml e => notYaml path e
  | .layout fault => layout path fault

def headline : Failure → Text
  | notFound kind path => kind.label ++ " file not found: ".toList ++ path
  | file path _ => "IO error on ".toList ++ path
  | header path _ => "Could not parse version from ".toList ++ path
  | notYaml path _ => "Invalid YAML in ".toList ++ path
  | layout path _ => "Unexpected manifest layout in ".toList ++ path
  | settings path _ => "Config error in ".toList ++ path
  | mismatch m => m.message

def reason? : Failure → Option Text
  | notFound _ _ => none
  | file _ e => some e.message
  | header _ fault => some fault.message
  | notYaml _ e => some e.message.toList
  | layout _ fault => some fault.message
  | settings _ fault => some fault.message
  | mismatch _ => none

def message (f : Failure) : Text :=
  match f.reason? with
  | some reason => f.headline ++ ": ".toList ++ reason
  | none => f.headline

end Failure

/-- A mismatch counts as a failure in the end. -/
def Outcome.result : Outcome → Except Failure Outcome
  | .mismatch m _ => .error (.mismatch m)
  | o => .ok o

end VersionDrift
