import VersionDrift.Header.Marker
import VersionDrift.Header.Triple

/-!
# Reading a header

The markers for the three components of a version are read in the order major,
minor, patch. A value that is no 64-bit number stops the reading at once; absent
markers are collected and reported together. Markers exist for every stem: the limit
on the size of a pattern, which a stem of some hundred thousand characters exceeds,
is left out.
-/

set_option autoImplicit false

namespace VersionDrift

structure MarkerSet where
  major : Marker
  minor : Marker
  patch : Marker
deriving DecidableEq, Repr

inductive HeaderFault where
  | missing (markers : List Marker)
  | noValue (marker : Marker)
  | notNumeric (marker : Marker) (raw : Text)
deriving DecidableEq, Repr

namespace HeaderFault

def quoted (m : Marker) : Text := '\x60' :: m.text ++ ['\x60']

def message : HeaderFault → Text
  | missing ms => "missing ".toList ++ Text.joined ", ".toList (ms.map quoted)
  | noValue m => quoted m ++ " has no value".toList
  | notNumeric m raw => quoted m ++ " has non-numeric value '".toList ++ raw ++ ['\'']

end HeaderFault

namespace MarkerSet

def ofStem (stem : Text) : MarkerSet :=
  let marker (part : String) : Marker :=
    ⟨"#define ".toList ++ stem ++ '_' :: part.toList⟩
  ⟨marker "MAJOR", marker "MINOR", marker "PATCH"⟩

/-- The component that a marker introduces, `none` when the marker is absent. -/
def component (t : Text) (m : Marker) : Except HeaderFault (Option UInt64) :=
  match m.find? t with
  | none => .ok none
  | some [] => .error (.noValue m)
  | some raw =>
    match Decimal.read? 10 raw with
    | some n =>
      if h : n < UInt64.size then .ok (some (UInt64.ofNatLT n h)) else .error (.notNumeric m raw)
    | none => .error (.notNumeric m raw)

def read (ms : MarkerSet) (t : Text) : Except HeaderFault Triple := do
  let major ← component t ms.major
  let minor ← component t ms.minor
  let patch ← component t ms.patch
  match major, minor, patch with
  | some a, some b, some c => .ok ⟨a, b, c⟩
  | _, _, _ =>
    .error (.missing (([(ms.major, major), (ms.minor, minor), (ms.patch, patch)].filter
      fun p => p.2.isNone).map (·.1)))

end MarkerSet
end VersionDrift
