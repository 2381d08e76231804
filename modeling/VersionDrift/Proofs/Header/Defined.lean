import VersionDrift.Header.Reading
import VersionDrift.Proofs.Decimal
import VersionDrift.Proofs.Except
import VersionDrift.Proofs.Header.Occurrence

/-!
# What a header defines

A marker defines a number in a text when the value of its first occurrence, without a
comment, is a run of digits that denotes it. A header is read as a version exactly when
its three markers define the components.
-/

set_option autoImplicit false

namespace VersionDrift

namespace Text

theorem startsWith_iff {stem t : Text} : startsWith stem t = true ↔ ∃ u, t = stem ++ u := by
  simp only [startsWith, Option.isSome_iff_exists, after?_eq_some]

end Text

namespace Marker

def BeginsComment (t : Text) : Prop := ∃ u, t = "//".toList ++ u ∨ t = "/*".toList ++ u

/-- The part of a value before the earliest place where a comment begins. -/
def IsUncommented (value raw : Text) : Prop :=
  (∃ rest, value = raw ++ rest ∧ (rest = [] ∨ BeginsComment rest)) ∧
    ∀ before rest, value = before ++ rest → BeginsComment rest → raw.length ≤ before.length

theorem beginsComment_iff {t : Text} : BeginsComment t ↔
    Text.startsWith "//".toList t = true ∨ Text.startsWith "/*".toList t = true := by
  simp only [BeginsComment, Text.startsWith_iff, exists_or]

theorem startsWith_block_before (c : Char) (t : Text) :
    Text.startsWith "/*".toList (c :: Text.before "//".toList t) =
      Text.startsWith "/*".toList (c :: t) := by
  have hstar : Text.startsWith ['*'] (Text.before "//".toList t) = Text.startsWith ['*'] t := by
    cases t with
    | nil => rfl
    | cons d t =>
      rw [Text.before]
      split
      · next hline =>
        obtain ⟨u, hu⟩ := Text.startsWith_iff.mp hline
        obtain rfl : d = '/' := (List.cons.inj hu).1
        rfl
      · simp
  have hblock : "/*".toList = ['/', '*'] := rfl
  rw [hblock, Text.startsWith_cons_cons, Text.startsWith_cons_cons, hstar]

theorem uncommented_cons (c : Char) (t : Text) [Decidable (BeginsComment (c :: t))] :
    uncommented (c :: t) = if BeginsComment (c :: t) then [] else c :: uncommented t := by
  simp only [uncommented, beginsComment_iff]
  by_cases hline : Text.startsWith "//".toList (c :: t) = true
  · rw [Text.before, if_pos hline, if_pos (.inl hline)]
    rfl
  · rw [Text.before, if_neg hline, Text.before, startsWith_block_before]
    simp only [or_iff_right hline]

theorem isUncommented_uncommented (value : Text) : IsUncommented value (uncommented value) := by
  classical
  induction value with
  | nil => exact ⟨⟨[], rfl, .inl rfl⟩, fun _ _ _ _ => Nat.zero_le _⟩
  | cons c t ih =>
    obtain ⟨⟨rest, hcut, hrest⟩, hearliest⟩ := ih
    rw [uncommented_cons]
    split
    · next hcomment => exact ⟨⟨c :: t, rfl, .inr hcomment⟩, fun _ _ _ _ => Nat.zero_le _⟩
    · next hno =>
      refine ⟨⟨rest, by rw [List.cons_append, ← hcut], hrest⟩, fun before rest' hcut' h => ?_⟩
      cases before with
      | nil => exact absurd (hcut' ▸ h) hno
      | cons d before =>
        exact Nat.succ_le_succ (hearliest before rest' (List.cons.inj hcut').2 h)

theorem IsUncommented.length_le {value raw raw' : Text} (h : IsUncommented value raw)
    (h' : IsUncommented value raw') : raw.length ≤ raw'.length := by
  obtain ⟨⟨rest, hcut, -⟩, hearliest⟩ := h
  obtain ⟨⟨rest', hcut', rfl | hcomment⟩, -⟩ := h'
  · rw [List.append_nil] at hcut'
    have hlength := congrArg List.length (hcut'.symm.trans hcut)
    rw [List.length_append] at hlength
    omega
  · exact hearliest raw' rest' hcut' hcomment

theorem uncommented_eq_iff {value raw : Text} :
    uncommented value = raw ↔ IsUncommented value raw := by
  constructor
  · rintro rfl
    exact isUncommented_uncommented value
  · intro h
    have huncommented := isUncommented_uncommented value
    have hlength := Nat.le_antisymm (huncommented.length_le h) (h.length_le huncommented)
    obtain ⟨⟨rest, hcut, -⟩, -⟩ := huncommented
    obtain ⟨⟨rest', hcut', -⟩, -⟩ := h
    exact (List.append_inj (hcut.symm.trans hcut') hlength).1

/-- The value of the first occurrence of the marker is a run of digits that denotes the number. -/
def Defines (m : Marker) (t : Text) (n : UInt64) : Prop :=
  ∃ value raw, First (Text.words m.text) t value ∧ IsUncommented value raw ∧
    raw ≠ [] ∧ (∀ c ∈ raw, c.isDigit = true) ∧ Nat.ofDigitChars 10 raw 0 = n.toNat

theorem find?_eq_some_iff {m : Marker} {t raw : Text} : m.find? t = some raw ↔
    ∃ value, First (Text.words m.text) t value ∧ IsUncommented value raw := by
  have hwords : AreWords (Text.words m.text) := fun w hw => Text.nonblank_of_mem_words hw
  simp only [find?, Option.map_eq_some_iff, firstValue?_iff_first hwords, uncommented_eq_iff]

end Marker

namespace MarkerSet

theorem component_eq_some_iff {t : Text} {m : Marker} {n : UInt64} :
    component t m = .ok (some n) ↔ m.Defines t n := by
  have hcomponent : component t m = .ok (some n) ↔
      ∃ raw, m.find? t = some raw ∧ Decimal.read? 10 raw = some n.toNat := by
    unfold component
    split
    · next hnone => simp [hnone]
    · next hnil => simp [hnil, Decimal.read?]
    · next raw hraw =>
      simp only [hraw, Option.some.injEq, exists_eq_left']
      split
      · next k hk =>
        rw [hk, Option.some.injEq]
        split
        · next hsize =>
          simp only [Except.ok.injEq, Option.some.injEq, ← UInt64.toNat_inj, UInt64.toNat_ofNatLT]
        · next hsize =>
          refine iff_of_false (by simp) ?_
          rintro rfl
          exact hsize n.toNat_lt
      · next hnone => simp [hnone]
  rw [hcomponent]
  simp only [Marker.find?_eq_some_iff, Decimal.read?_eq_some_iff]
  constructor
  · rintro ⟨raw, ⟨value, hfirst, hraw⟩, hdigits⟩
    exact ⟨value, raw, hfirst, hraw, hdigits⟩
  · rintro ⟨value, raw, hfirst, hraw, hdigits⟩
    exact ⟨raw, ⟨value, hfirst, hraw⟩, hdigits⟩

theorem read_eq_ok_iff {ms : MarkerSet} {t : Text} {v : Triple} : ms.read t = .ok v ↔
    component t ms.major = .ok (some v.major) ∧ component t ms.minor = .ok (some v.minor) ∧
      component t ms.patch = .ok (some v.patch) := by
  constructor
  · intro h
    obtain ⟨major, hmajor, h⟩ := bind_eq_ok h
    obtain ⟨minor, hminor, h⟩ := bind_eq_ok h
    obtain ⟨patch, hpatch, h⟩ := bind_eq_ok h
    split at h
    · obtain rfl := Except.ok.inj h
      exact ⟨hmajor, hminor, hpatch⟩
    · cases h
  · rintro ⟨hmajor, hminor, hpatch⟩
    simp only [read, hmajor, hminor, hpatch, ok_bind]

/-- A header is read as a version exactly when each of its components is the number that the first
occurrence of its marker defines. -/
theorem read_ofStem_iff (stem t : Text) (v : Triple) : (ofStem stem).read t = .ok v ↔
    (Marker.mk ("#define ".toList ++ stem ++ "_MAJOR".toList)).Defines t v.major ∧
    (Marker.mk ("#define ".toList ++ stem ++ "_MINOR".toList)).Defines t v.minor ∧
    (Marker.mk ("#define ".toList ++ stem ++ "_PATCH".toList)).Defines t v.patch := by
  rw [read_eq_ok_iff, component_eq_some_iff, component_eq_some_iff, component_eq_some_iff]
  rfl

/-- A marker that is part of a longer name, and a comment right after a number. -/
example : (ofStem "V".toList).read
    ("#define LIB_V_MAJOR 9\n#define V_MAJOR\t1/**/\n" ++
      "#define  V_MINOR 2//\n  #define V_PATCH 3").toList = .ok ⟨1, 2, 3⟩ := by rfl

end MarkerSet
end VersionDrift
