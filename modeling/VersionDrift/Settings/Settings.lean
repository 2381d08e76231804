import VersionDrift.Settings.Configuration
import VersionDrift.Files.Path

/-!
# Settings

The header, the manifest and the stem of the markers for one run. A value that is
given for the run wins over the settings file, and that over the default. Paths are
taken from the root of the project.
-/

set_option autoImplicit false

namespace VersionDrift

structure Overrides where
  header : Option Text
  manifest : Option Text
  stem : Option Text
deriving DecidableEq, Repr

structure Settings where
  headerPath : Text
  manifestPath : Text
  stem : Text
deriving DecidableEq, Repr

namespace Settings

def defaultHeader : Text := "include/xeus_ocaml_config.hpp".toList

def defaultManifest : Text := "recipe/recipe-prod.yaml".toList

def defaultStem : Text := "XEUS_OCAML_VERSION".toList

/-- The settings file of a project, looked for in its root. -/
def fileName : Text := "sync-version.toml".toList

def resolve (root : Text) (c : Configuration) (o : Overrides) : Settings where
  headerPath := Path.join root ((o.header <|> c.header.path).getD defaultHeader)
  manifestPath := Path.join root ((o.manifest <|> c.manifest.path).getD defaultManifest)
  stem := (o.stem <|> c.header.stem).getD defaultStem

end Settings
end VersionDrift
