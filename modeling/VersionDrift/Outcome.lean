import VersionDrift.Manifest.Document
import VersionDrift.Diff.Unified

/-!
# Outcomes

The version of a header against that of a manifest. In check mode drift is only
reported; in sync mode the manifest takes the version of the header. A diff shows
the change that is made, or that would be made; a manifest that cannot be
rewritten has none.
-/

set_option autoImplicit false

namespace VersionDrift

inductive Mode where
  | check
  | sync
deriving DecidableEq, Repr

/-- Two versions that differ, with the files they come from. -/
structure Mismatch where
  headerPath : Text
  header : Text
  manifestPath : Text
  manifest : Text
deriving DecidableEq, Repr

def Mismatch.message (m : Mismatch) : Text :=
  "Versions do not match!\n  Header   (".toList ++ m.headerPath ++ "): ".toList ++ m.header ++
    "\n  Manifest (".toList ++ m.manifestPath ++ "): ".toList ++ m.manifest ++
    "\nRun `sync-version` without --check and commit the changes.".toList

inductive Outcome where
  | synced (version : Text)
  | updated (old new : Text) (diff : Option Text)
  | mismatch (m : Mismatch) (diff : Option Text)
deriving DecidableEq, Repr

/-- An outcome, and the manifest that has to be stored to bring it about. -/
structure Plan where
  outcome : Outcome
  store : Option Manifest
deriving DecidableEq, Repr

structure Request where
  headerPath : Text
  manifestPath : Text
  mode : Mode
  wantsDiff : Bool
deriving DecidableEq, Repr

namespace Plan

def diffOf (r : Request) (old new : Manifest) : Option Text :=
  if r.wantsDiff then Unified.diff? r.manifestPath old.source new.source else none

/-- What to do about a manifest when the header has the version `header`. -/
def make (r : Request) (header : Text) (m : Manifest) : Except ManifestFault Plan :=
  if header = m.version then .ok ⟨.synced m.version, none⟩
  else match r.mode with
    | .check =>
      let report (diff : Option Text) : Plan :=
        ⟨.mismatch ⟨r.headerPath, header, r.manifestPath, m.version⟩ diff, none⟩
      if r.wantsDiff then (m.rewrite header).map fun new => report (diffOf r m new)
      else .ok (report none)
    | .sync =>
      (m.rewrite header).map fun new => ⟨.updated m.version header (diffOf r m new), some new⟩

end Plan
end VersionDrift
