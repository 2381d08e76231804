import VersionDrift.Decimal.Natural

/-!
# Decimal numbers with an exponent

`digits * 10 ^ exponent`, as written in `12`, `.5`, `5.` and `1.2e-3`.
-/

set_option autoImplicit false

namespace VersionDrift.Decimal

structure Scientific where
  digits : Nat
  exponent : Int
deriving DecidableEq, Repr

namespace Scientific

def exponent? : Text → Option Int
  | '-' :: t => (read? 10 t).map fun n => -(n : Int)
  | '+' :: t => (read? 10 t).map Int.ofNat
  | t => (read? 10 t).map Int.ofNat

def mantissa? (whole fraction : Text) : Option Scientific :=
  (read? 10 (whole ++ fraction)).map fun n => ⟨n, -fraction.length⟩

def read? (t : Text) : Option Scientific :=
  let isExponentMark (c : Char) : Bool := c = 'e' || c = 'E'
  let mantissa := t.takeWhile fun c => !isExponentMark c
  let (whole, fraction) := (mantissa.takeWhile (· ≠ '.'), mantissa.dropWhile (· ≠ '.'))
  (mantissa? whole (fraction.drop 1)).bind fun s =>
    match t.drop mantissa.length with
    | [] => some s
    | _ :: e => (exponent? e).map fun n => { s with exponent := s.exponent + n }

end Scientific
end VersionDrift.Decimal
