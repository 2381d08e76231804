import VersionDrift.Header.Triple
import VersionDrift.Manifest.Located
import VersionDrift.Proofs.Yaml.Pointed
import VersionDrift.Proofs.Yaml.Valued

/-!
# A dotted version is a string

A dotted version has two points, so it is no number, nor any other value that a plain
scalar can spell.
-/

set_option autoImplicit false

namespace VersionDrift

namespace Triple

variable (v : Triple)

theorem dotted_ne {t : Text} {c : Char} (hc : c ∈ t) (hdigit : c.isDigit = false)
    (hpoint : c ≠ '.') : v.dotted ≠ t := by
  intro h
  rcases mem_dotted (h ▸ hc) with h | h
  · rw [h] at hdigit
    cases hdigit
  · exact hpoint h

theorem contextKey_ne_dotted : contextKey ≠ v.dotted :=
  Ne.symm (v.dotted_ne (c := 'c') (by decide) rfl (by decide))

theorem versionKey_ne_dotted : versionKey ≠ v.dotted :=
  Ne.symm (v.dotted_ne (c := 'v') (by decide) rfl (by decide))

theorem dotted_eq_cons : ∃ c t, v.dotted = c :: t ∧ c.isDigit = true := by
  unfold dotted
  cases hmajor : Decimal.ofNat v.major.toNat with
  | nil => exact absurd hmajor Nat.toDigits_ne_nil
  | cons c t => exact ⟨c, _, rfl, Decimal.isDigit_of_mem_ofNat (hmajor ▸ List.mem_cons_self)⟩

end Triple

namespace Yaml

theorem onlyString_dotted (v : Triple) : Resolution.OnlyString v.dotted :=
  Resolution.plain_of_points v.points_dotted

end Yaml
end VersionDrift
