import VersionDrift.Decimal.Shortest
import VersionDrift.Decimal.Positional
import VersionDrift.Yaml.Error

/-!
# Numbers of a document

How a plain scalar spells a number, and how a number is written. A float between
`10 ^ -5` and `10 ^ 16` is written with a point and all others with an exponent.
-/

set_option autoImplicit false

namespace VersionDrift.Yaml

open Decimal

inductive Number where
  | integer (n : Int)
  | float (x : Binary64)
deriving DecidableEq, Repr

namespace Number

def same : Number → Number → Bool
  | integer m, integer n => m = n
  | float x, float y => x.sameValue y
  | _, _ => false

def layout (ds : Text) (place : Int) : Text :=
  if -5 < place && place ≤ 16 then positional ds place
  else
    let fraction := if ds.length = 1 then [] else '.' :: ds.drop 1
    ds.take 1 ++ fraction ++ 'e' :: ofInt (place - 1)

def floatText : Binary64 → Text
  | .nan => ".nan".toList
  | .infinite negative => if negative then "-.inf".toList else ".inf".toList
  | .finite negative m q =>
    let sign : Text := if negative then ['-'] else []
    if m = 0 then sign ++ "0.0".toList
    else
      let s := Shortest.ofFinite m q
      let ds := ofNat s.digits
      sign ++ layout ds (ds.length + s.exponent)

def text : Number → Text
  | integer n => ofInt n
  | float x => floatText x

/-- Digits only, after a sign, and more than one with a zero at the start. -/
def hasLeadingZero (t : Text) : Bool :=
  let unsigned := match t with
    | '-' :: r => r
    | '+' :: r => r
    | r => r
  match unsigned with
  | '0' :: d :: r => (d :: r).all Char.isDigit
  | _ => false

def marked? (t : Text) : Option (Nat × Text) :=
  match t with
  | '0' :: 'x' :: r => some (16, r)
  | '0' :: 'o' :: r => some (8, r)
  | '0' :: 'b' :: r => some (2, r)
  | _ => none

def magnitude? (t : Text) : Option Nat :=
  match marked? t with
  | some (radix, r) => read? radix r
  | none => read? 10 t

def integer? (t : Text) : Option Int :=
  if hasLeadingZero t then none
  else match t with
    | '-' :: r => (magnitude? r).map fun n => -(n : Int)
    | '+' :: r => (magnitude? r).map Int.ofNat
    | r => (magnitude? r).map Int.ofNat

/-- An integer that 64 bits hold; one that needs up to 128 is an error, and a greater one is left to
be a float. -/
def fixedInteger? (t : Text) : Except Error (Option Int) :=
  match integer? t with
  | none => .ok none
  | some n =>
    if -Int.pow 2 63 ≤ n && n < Int.pow 2 64 then .ok (some n)
    else if -Int.pow 2 127 ≤ n && n < Int.pow 2 128 then .error .numberOutOfRange
    else .ok none

def float? (t : Text) : Option Binary64 :=
  let finite (negative : Bool) (r : Text) : Option Binary64 :=
    (Scientific.read? r).bind fun s =>
      let x := Binary64.ofScientific negative s
      if x.isFinite then some x else none
  let isInfinity (r : Text) : Bool := r ∈ [".inf".toList, ".Inf".toList, ".INF".toList]
  if t ∈ [".nan".toList, ".NaN".toList, ".NAN".toList] then some .nan
  else match t with
    | '-' :: r => if isInfinity r then some (.infinite true) else finite true r
    | '+' :: r => if isInfinity r then some (.infinite false) else finite false r
    | r => if isInfinity r then some (.infinite false) else finite false r

def ofText? (t : Text) : Except Error (Option Number) := do
  match ← fixedInteger? t with
  | some n => return some (.integer n)
  | none => return if hasLeadingZero t then none else (float? t).map .float

end Number
end VersionDrift.Yaml
