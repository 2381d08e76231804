import VersionDrift.Decimal.Scientific

/-!
# Binary floating point

A finite number of the binary64 format is `significand * 2 ^ exponent` with a
significand below `2 ^ 53`, which reaches `2 ^ 52` unless the exponent is the
least one, -1074. A fraction is rounded to the nearest such number, and of two
equally near ones to the one with an even significand.
-/

set_option autoImplicit false

namespace VersionDrift.Decimal

inductive Binary64 where
  | nan
  | infinite (negative : Bool)
  | finite (negative : Bool) (significand : Nat) (exponent : Int)
deriving DecidableEq, Repr

namespace Binary64

def leastExponent : Int := -1074

def greatestExponent : Int := 971

def zero (negative : Bool) : Binary64 := .finite negative 0 leastExponent

def isFinite : Binary64 → Bool
  | finite .. => true
  | _ => false

def scaled (num den : Nat) (q : Int) : Nat × Nat :=
  if 0 ≤ q then (num, den * Nat.pow 2 q.toNat) else (num * Nat.pow 2 (-q).toNat, den)

def roundHalfEven (num den : Nat) : Nat :=
  let quotient := num / den
  let twice := 2 * (num % den)
  if den < twice || (den = twice && quotient % 2 = 1) then quotient + 1 else quotient

/-- The exponent at which the quotient takes 53 bits, or the least one. -/
def exponentOf (num den : Nat) : Int :=
  let q := max ((num.log2 : Int) - den.log2 - 53) leastExponent
  let (a, b) := scaled num den q
  if Nat.pow 2 53 ≤ a / b then q + 1 else q

/-- The number nearest to `num / den`. -/
def ofRatio (negative : Bool) (num den : Nat) : Binary64 :=
  let q := exponentOf num den
  let (a, b) := scaled num den q
  let m := roundHalfEven a b
  let (m, q) := if m = Nat.pow 2 53 then (Nat.pow 2 52, q + 1) else (m, q)
  if greatestExponent < q then .infinite negative else .finite negative m q

/-- The number nearest to a decimal one. Powers of ten that no finite number reaches are not
computed. -/
def ofScientific (negative : Bool) (s : Scientific) : Binary64 :=
  let magnitude : Int := (ofNat s.digits).length + s.exponent
  if s.digits = 0 || magnitude < -330 then zero negative
  else if 310 < magnitude then .infinite negative
  else if 0 ≤ s.exponent then ofRatio negative (s.digits * Nat.pow 10 s.exponent.toNat) 1
  else ofRatio negative s.digits (Nat.pow 10 (-s.exponent).toNat)

/-- Equality of values: both zeros are one number, and all that is no number counts as one. -/
def sameValue : Binary64 → Binary64 → Bool
  | finite _ 0 _, finite _ 0 _ => true
  | x, y => x = y

end Binary64
end VersionDrift.Decimal
