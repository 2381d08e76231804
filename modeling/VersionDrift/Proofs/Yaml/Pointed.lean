import VersionDrift.Proofs.Yaml.Number

/-!
# Texts with two points

No way to write a number has two points in it, and none of the other values that a plain
scalar can spell has. So a text with two points is a string.
-/

set_option autoImplicit false

namespace VersionDrift

namespace Text

theorem count_takeWhile_dropWhile (c : Char) (p : Char → Bool) (t : Text) :
    t.count c = (t.takeWhile p).count c + (t.dropWhile p).count c := by
  rw [← List.count_append, List.takeWhile_append_dropWhile]

end Text

namespace Decimal

variable {radix : Nat} {t : Text}

theorem readFrom_of_point (h : '.' ∈ t) (value : Nat) : readFrom radix value t = none := by
  induction t generalizing value with
  | nil => cases h
  | cons c t ih =>
    rw [readFrom]
    by_cases hc : c = '.'
    · subst hc
      simp [digit?]
    · have hmem : '.' ∈ t := List.mem_of_ne_of_mem (Ne.symm hc) h
      cases digit? radix c with
      | none => rfl
      | some d => exact ih hmem _

theorem read?_of_point (h : '.' ∈ t) : read? radix t = none := by
  cases t with
  | nil => cases h
  | cons c t => exact readFrom_of_point h 0

namespace Scientific

theorem point_mem_fraction (h : 2 ≤ t.count '.') : '.' ∈ (t.dropWhile (· ≠ '.')).drop 1 := by
  have hwhole : (t.takeWhile (· ≠ '.')).count '.' = 0 := by
    refine List.count_eq_zero.mpr fun hmem => ?_
    simpa using List.all_eq_true.mp List.all_takeWhile _ hmem
  have hcount := Text.count_takeWhile_dropWhile '.' (· ≠ '.') t
  cases hrest : t.dropWhile (· ≠ '.') with
  | nil =>
    rw [hrest, List.count_nil] at hcount
    omega
  | cons c r =>
    rw [hrest, List.count_cons] at hcount
    have hone : (if (c == '.') = true then 1 else 0) ≤ 1 := by split <;> omega
    have hpos : 0 < r.count '.' := by omega
    exact List.count_pos_iff.mp hpos

theorem exponent?_of_point (h : '.' ∈ t) : exponent? t = none := by
  unfold exponent?
  split
  · rw [read?_of_point (List.mem_of_ne_of_mem (by decide) h)]
    rfl
  · rw [read?_of_point (List.mem_of_ne_of_mem (by decide) h)]
    rfl
  · rw [read?_of_point h]
    rfl

theorem read?_of_points (h : 2 ≤ t.count '.') : read? t = none := by
  unfold read?
  dsimp only
  rw [Text.drop_length_takeWhile]
  have hcount := Text.count_takeWhile_dropWhile '.' (fun c => !(c = 'e' || c = 'E' : Bool)) t
  by_cases hmantissa : 2 ≤ (t.takeWhile fun c => !(c = 'e' || c = 'E' : Bool)).count '.'
  · rw [mantissa?, read?_of_point (List.mem_append_right _ (point_mem_fraction hmantissa))]
    rfl
  · cases hrest : t.dropWhile (fun c => !(c = 'e' || c = 'E' : Bool)) with
    | nil =>
      rw [hrest, List.count_nil] at hcount
      omega
    | cons c e =>
      have hmark := Text.head_dropWhile hrest
      have hne : c ≠ '.' := by
        rintro rfl
        cases hmark
      rw [hrest, List.count_cons_of_ne hne] at hcount
      have hpos : 0 < e.count '.' := by omega
      simp [exponent?_of_point (List.count_pos_iff.mp hpos)]

end Scientific
end Decimal

namespace Yaml

variable {t : Text}

namespace Number

theorem magnitude?_of_point (h : '.' ∈ t) : magnitude? t = none := by
  unfold magnitude?
  split
  · next radix r hmarked =>
    obtain ⟨c, hc, rfl⟩ := marked?_eq_some hmarked
    have hmark : '.' ≠ c := by
      rintro rfl
      exact absurd hc (by decide)
    exact Decimal.read?_of_point (by simpa [hmark] using h)
  · exact Decimal.read?_of_point h

theorem integer?_of_point (h : '.' ∈ t) : integer? t = none := by
  unfold integer?
  split
  · rfl
  · split
    · rw [magnitude?_of_point (List.mem_of_ne_of_mem (by decide) h)]
      rfl
    · rw [magnitude?_of_point (List.mem_of_ne_of_mem (by decide) h)]
      rfl
    · rw [magnitude?_of_point h]
      rfl

theorem not_mem_of_points {names : List Text} (h : 2 ≤ t.count '.')
    (hnames : ∀ name ∈ names, name.count '.' ≤ 1) : t ∉ names := by
  intro hmem
  have hcount := hnames t hmem
  omega

theorem float?_of_points (h : 2 ≤ t.count '.') : float? t = none := by
  have hinfinity {r : Text} (hr : 2 ≤ r.count '.') :
      decide (r ∈ [".inf".toList, ".Inf".toList, ".INF".toList]) = false :=
    decide_eq_false (not_mem_of_points hr (by decide))
  unfold float?
  rw [if_neg (not_mem_of_points h (by decide))]
  split
  · rw [List.count_cons_of_ne (by decide)] at h
    simp only [hinfinity h, Decimal.Scientific.read?_of_points h]
    rfl
  · rw [List.count_cons_of_ne (by decide)] at h
    simp only [hinfinity h, Decimal.Scientific.read?_of_points h]
    rfl
  · simp only [hinfinity h, Decimal.Scientific.read?_of_points h]
    rfl

theorem ofText?_of_points (h : 2 ≤ t.count '.') : ofText? t = .ok none := by
  have hpoint : '.' ∈ t := List.count_pos_iff.mp (by omega)
  unfold ofText?
  rw [fixedInteger?, integer?_of_point hpoint, float?_of_points h]
  simp

end Number

namespace Resolution

/-- A text with two points is a string. -/
theorem plain_of_points (h : 2 ≤ t.count '.') : plain t = .ok (.string t) := by
  have hname {names : List Text} (hnames : ∀ name ∈ names, name.count '.' ≤ 1) :
      names.contains t = false := by
    rw [← Bool.not_eq_true, List.contains_iff_mem]
    exact Number.not_mem_of_points h hnames
  have hempty : t.isEmpty = false := by
    cases t with
    | nil => cases h
    | cons c t => rfl
  have hnull : isNull t = false := hname (by decide)
  have hboolean : boolean? t = none := by
    rw [boolean?, hname (by decide), hname (by decide)]
    rfl
  rw [plain, hempty, hnull, hboolean, Number.ofText?_of_points h]
  rfl

end Resolution
end Yaml
end VersionDrift
