import VersionDrift.Text.Basic

/-!
# Paths

A path is a text with slashes. Its steps are the names between the slashes; empty
ones do not count, but a slash at the end asks for a directory, as a last step `.`
does.
-/

set_option autoImplicit false

namespace VersionDrift.Path

def isAbsolute (p : Text) : Bool := p.head? = some '/'

def join (base p : Text) : Text :=
  if isAbsolute p || base.isEmpty then p
  else if base.getLast? = some '/' then base ++ p
  else base ++ '/' :: p

def steps (p : Text) : List Text :=
  let names := (Text.splitAt '/' p).filter fun name => !name.isEmpty
  if p.getLast? = some '/' then names ++ [['.']] else names

end VersionDrift.Path
