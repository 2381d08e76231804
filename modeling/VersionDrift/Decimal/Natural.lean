import VersionDrift.Text.Basic

/-!
# Natural numbers in a radix

Digits are ASCII; letters of either case stand for ten and more.
-/

set_option autoImplicit false

namespace VersionDrift.Decimal

def ofNat (n : Nat) : Text := Nat.toDigits 10 n

theorem isDigit_of_mem_ofNat {n : Nat} {c : Char} (h : c ∈ ofNat n) : c.isDigit = true :=
  Nat.isDigit_of_mem_toDigits (by decide) (by decide) h

def ofInt : Int → Text
  | .ofNat n => ofNat n
  | .negSucc n => '-' :: ofNat (n + 1)

def digit? (radix : Nat) (c : Char) : Option Nat :=
  let n := c.toNat
  let d := if 0x30 ≤ n && n ≤ 0x39 then n - 0x30
    else if 0x61 ≤ n && n ≤ 0x7A then n - 0x61 + 10
    else if 0x41 ≤ n && n ≤ 0x5A then n - 0x41 + 10
    else radix
  if d < radix then some d else none

def readFrom (radix : Nat) : Nat → Text → Option Nat
  | value, [] => some value
  | value, c :: t => (digit? radix c).bind fun d => readFrom radix (value * radix + d) t

def read? (radix : Nat) : Text → Option Nat
  | [] => none
  | t => readFrom radix 0 t

end VersionDrift.Decimal
