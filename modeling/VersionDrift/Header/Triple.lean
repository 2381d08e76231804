import VersionDrift.Decimal.Natural

/-!
# Version triples

The three components are 64-bit numbers; the dotted form writes them in decimal.
-/

set_option autoImplicit false

namespace VersionDrift

structure Triple where
  major : UInt64
  minor : UInt64
  patch : UInt64
deriving DecidableEq, Repr

namespace Triple

def dotted (v : Triple) : Text :=
  Decimal.ofNat v.major.toNat ++ '.' :: Decimal.ofNat v.minor.toNat ++
    '.' :: Decimal.ofNat v.patch.toNat

theorem mem_dotted {v : Triple} {c : Char} (h : c ∈ v.dotted) : c.isDigit = true ∨ c = '.' := by
  simp only [dotted, List.mem_append, List.mem_cons] at h
  rcases h with (h | h | h) | h | h
  · exact .inl (Decimal.isDigit_of_mem_ofNat h)
  · exact .inr h
  · exact .inl (Decimal.isDigit_of_mem_ofNat h)
  · exact .inr h
  · exact .inl (Decimal.isDigit_of_mem_ofNat h)

theorem points_dotted (v : Triple) : 2 ≤ v.dotted.count '.' := by
  simp only [dotted, List.count_append, List.count_cons_self]
  omega

end Triple
end VersionDrift
