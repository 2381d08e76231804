import VersionDrift.Text.Basic

/-!
# Positional form

Digits with a point among them and no exponent; at least one digit stands on either
side of the point.
-/

set_option autoImplicit false

namespace VersionDrift.Decimal

def positional (ds : Text) (place : Int) : Text :=
  let zeros (n : Int) : Text := List.replicate n.toNat '0'
  if ds.length ≤ place then ds ++ zeros (place - ds.length) ++ ".0".toList
  else if 0 < place then ds.take place.toNat ++ '.' :: ds.drop place.toNat
  else "0.".toList ++ zeros (-place) ++ ds

end VersionDrift.Decimal
