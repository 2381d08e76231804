import VersionDrift.Toml.Value

/-!
# Numbers, dates and truth values

A scalar without quotes is a run of letters, digits and the signs `+-.:_`.
Underscores may stand between two digits. Hours and minutes are required of a
time, seconds are not.
-/

set_option autoImplicit false

namespace VersionDrift.Toml.Scalar

open Decimal

def isScalar (c : Char) : Bool :=
  c.isAlphanum || c = '+' || c = '-' || c = '.' || c = ':' || c = '_'

/-- Digits in a radix, without the underscores between them. -/
def digits? (radix : Nat) : Text → Option Text
  | [] => none
  | c :: t =>
    if (digit? radix c).isNone then none
    else match t with
      | [] => some [c]
      | '_' :: r => (digits? radix r).map (c :: ·)
      | r => (digits? radix r).map (c :: ·)

def whole? (t : Text) : Option Text :=
  (digits? 10 t).filter fun ds => ds.head? ≠ some '0' || ds.length = 1

def natural? (t : Text) : Option Nat := (whole? t).bind (read? 10)

def tail? (t : Text) : Option (Text × Int) :=
  let isExponentMark (c : Char) : Bool := c = 'e' || c = 'E'
  let fraction := t.takeWhile fun c => !isExponentMark c
  let fractionDigits? := match fraction with
    | [] => some []
    | '.' :: ds => digits? 10 ds
    | _ => none
  let exponent? := match t.drop fraction.length with
    | [] => some 0
    | _ :: '-' :: ds => ((digits? 10 ds).bind (read? 10)).map fun n => -(n : Int)
    | _ :: '+' :: ds => ((digits? 10 ds).bind (read? 10)).map Int.ofNat
    | _ :: ds => ((digits? 10 ds).bind (read? 10)).map Int.ofNat
  fractionDigits?.bind fun ds => exponent?.map fun e => (ds, e)

def float? (negative : Bool) (t : Text) : Option Float :=
  if t = "inf".toList then some (.infinite negative)
  else if t = "nan".toList then some .nan
  else
    let isWhole (c : Char) : Bool := c.isDigit || c = '_'
    (whole? (t.takeWhile isWhole)).bind fun ws =>
      (tail? (t.dropWhile isWhole)).bind fun (ds, e) =>
        (Scientific.mantissa? ws ds).map fun s =>
          .decimal negative { s with exponent := s.exponent + e }

def unsigned? (negative : Bool) (t : Text) : Option Value :=
  match natural? t with
  | some n => some (.integer (if negative then -(n : Int) else n))
  | none => (float? negative t).map .float

def number? : Text → Option Value
  | '+' :: t => unsigned? false t
  | '-' :: t => unsigned? true t
  | '0' :: 'x' :: t => ((digits? 16 t).bind (read? 16)).map fun n => .integer n
  | '0' :: 'o' :: t => ((digits? 8 t).bind (read? 8)).map fun n => .integer n
  | '0' :: 'b' :: t => ((digits? 2 t).bind (read? 2)).map fun n => .integer n
  | t => unsigned? false t

def field? (count least greatest : Nat) (t : Text) : Option (Nat × Text) :=
  let ds := t.take count
  if ds.length = count then
    (read? 10 ds).bind fun n =>
      if least ≤ n && n ≤ greatest then some (n, t.drop count) else none
  else none

def isLeapYear (y : Nat) : Bool := y % 4 = 0 && (y % 100 ≠ 0 || y % 400 = 0)

def daysOfMonth (y m : Nat) : Nat :=
  if m = 2 then if isLeapYear y then 29 else 28
  else if m = 4 || m = 6 || m = 9 || m = 11 then 30
  else 31

def afterDate? (t : Text) : Option Text := do
  let (y, t) ← field? 4 0 9999 t
  let t ← Text.after? ['-'] t
  let (m, t) ← field? 2 1 12 t
  let t ← Text.after? ['-'] t
  let (_, t) ← field? 2 1 (daysOfMonth y m) t
  return t

def afterFraction? : Text → Option Text
  | '.' :: t => if t.head?.any Char.isDigit then some (t.dropWhile Char.isDigit) else none
  | t => some t

def afterTime? (t : Text) : Option Text := do
  let (_, t) ← field? 2 0 23 t
  let t ← Text.after? [':'] t
  let (_, t) ← field? 2 0 59 t
  match t with
  | ':' :: t =>
    let (_, t) ← field? 2 0 60 t
    afterFraction? t
  | t => return t

def isOffset : Text → Bool
  | [] => true
  | ['Z'] => true
  | ['z'] => true
  | c :: t =>
    (c = '+' || c = '-') &&
      (((field? 2 0 24 t).bind fun (_, t) => Text.after? [':'] t).bind (field? 2 0 59)).any
        fun (_, t) => t.isEmpty

def isTimeMark (c : Char) : Bool := c = 'T' || c = 't' || c = ' '

def isDateTime (t : Text) : Bool :=
  match afterDate? t with
  | some [] => true
  | some (c :: r) => isTimeMark c && (afterTime? r).any isOffset
  | none => afterTime? t = some []

def run (t : Text) : Text × Text :=
  let word := t.takeWhile isScalar
  let rest := t.drop word.length
  match afterDate? word, rest with
  | some [], ' ' :: r =>
    if r.head?.any Char.isDigit then (word ++ ' ' :: r.takeWhile isScalar, r.dropWhile isScalar)
    else (word, rest)
  | _, _ => (word, rest)

def read (t : Text) : Except Error (Value × Text) :=
  let (word, rest) := run t
  if word.isEmpty then .error .badValue
  else if word = "true".toList then .ok (.boolean true, rest)
  else if word = "false".toList then .ok (.boolean false, rest)
  else if isDateTime word then .ok (.dateTime word, rest)
  else match number? word with
    | some v => .ok (v, rest)
    | none => .error .badNumber

end VersionDrift.Toml.Scalar
