import VersionDrift.Proofs.Yaml.Parts

/-!
# Mappings with one entry

A mapping with one entry whose key is a plain string means the mapping of that string to
what the value means. No alias is followed on the way.
-/

set_option autoImplicit false

namespace VersionDrift.Yaml.Resolution

@[simp] theorem scalar_plain (t : Text) : scalar false none t .plain = plain t := by
  change (plain t).map (marked none) = plain t
  cases plain t <;> rfl

variable (anchors : Anchors) (depth : Nat)

theorem run_scalar (tagRead : Bool) (t : Text) (style : ScalarStyle) (s : Nat) :
    (value anchors depth tagRead (.scalar none t style)).run s =
      (scalar tagRead none t style).map (·, s) := by
  cases depth <;> cases h : scalar tagRead none t style <;>
    simp [value, valueWith, follow, contentWith, h]

theorem run_entry {key : Text} (hkey : plain key = .ok (.string key)) (node : Node) (s : Nat) :
    (value anchors (depth + 1) false (.mapping none [(.scalar none key .plain, node)])).run s =
      ((value anchors depth false node).run s).map
        fun p => (.mapping [(.string key, p.1)], p.2) := by
  have hread : (value anchors depth false (.scalar none key .plain)).run s =
      .ok (.string key, s) := by
    rw [run_scalar, scalar_plain, hkey]
    rfl
  rw [value]
  unfold valueWith
  simp only [follow, contentWith, entries, markOf, localTag?, marked, List.any_nil, pure_bind,
    StateT.run_bind, StateT.run_pure, hread, Option.isSome_none, Bool.or_self,
    Bool.false_eq_true, if_false, Option.elim_none, bind_assoc, List.reverse_cons, List.reverse_nil,
    List.nil_append]
  rfl

end VersionDrift.Yaml.Resolution
