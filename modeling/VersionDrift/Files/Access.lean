import VersionDrift.Files.Disk

/-!
# Access to files

What a run does with files, for any place where files are kept. A disk is one such
place.
-/

set_option autoImplicit false

namespace VersionDrift

structure Files (m : Type → Type) where
  read : Text → m (Except FileError Text)
  replace : Text → Text → m (Except FileError Unit)

def Disk.files : Files (StateM Disk) where
  read path := return (← get).read path
  replace path content := do
    match (← get).replace path content with
    | .ok d =>
      set d
      return .ok ()
    | .error e => return .error e

end VersionDrift
