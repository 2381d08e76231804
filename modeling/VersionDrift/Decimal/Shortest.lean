import VersionDrift.Decimal.Binary64

/-!
# The shortest decimal form

Among the decimal numbers that round to a binary64 number the shortest form is one
with the fewest digits, and among those the nearest. Each count of digits is a
grid; if any of its points rounds to the number, one of the two around the number
does, so only these are tried. Seventeen digits always suffice.
-/

set_option autoImplicit false

namespace VersionDrift.Decimal.Shortest

def leadingPower (num den : Nat) : Int :=
  if den ≤ num then (ofNat (num / den)).length - 1
  else -(ofNat ((den - 1) / num)).length

/-- The interval of the numbers that round to `m * 2 ^ q`, in quarters of `2 ^ q`: half a unit to
each side, but a quarter below the least significand of an exponent. -/
def lowerEnd (m : Nat) (q : Int) : Nat :=
  if m = Nat.pow 2 52 && Binary64.leastExponent < q then 4 * m - 1 else 4 * m - 2

def upperEnd (m : Nat) : Nat := 4 * m + 2

/-- The best form of `m * 2 ^ q` on the grid of the multiples of `10 ^ k`. -/
def onGrid? (m : Nat) (q k : Int) : Option Scientific :=
  let power (base : Nat) (e : Int) : Nat := Nat.pow base e.toNat
  let step := power 10 k * power 2 (2 - q)
  let quarter := power 2 (q - 2) * power 10 (-k)
  let below := 4 * m * quarter / step
  let inside (d : Nat) : Bool :=
    if m % 2 = 0 then lowerEnd m q * quarter ≤ d * step && d * step ≤ upperEnd m * quarter
    else lowerEnd m q * quarter < d * step && d * step < upperEnd m * quarter
  let twice := 2 * (4 * m * quarter - below * step)
  let belowIsNearer := twice < step || (twice = step && below % 2 = 0)
  let best? :=
    if inside below && (belowIsNearer || !inside (below + 1)) then some below
    else if inside (below + 1) then some (below + 1)
    else none
  best?.map fun d => if d % 10 = 0 then ⟨d / 10, k + 1⟩ else ⟨d, k⟩

/-- The shortest form of `m * 2 ^ q`, where `m` is not zero. -/
def ofFinite (m : Nat) (q : Int) : Scientific :=
  let (num, den) := Binary64.scaled m 1 (-q)
  let top := leadingPower num den
  ((List.range 17).findSome? fun (n : Nat) => onGrid? m q (top - n)).getD ⟨m, q⟩

end VersionDrift.Decimal.Shortest
